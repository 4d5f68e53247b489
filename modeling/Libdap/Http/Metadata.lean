import Libdap.Core.KeyedSet
import Libdap.Http.CacheTable
import Libdap.Http.IndexRoundTrip
import Mathlib.Data.Char
import Mathlib.Data.List.Lex

/-! # The headers of an entry in its file

`write_metadata` writes a header a line. `read_metadata` reads up to 1023 characters at a time and takes the last of
them for the end of a line.
-/

namespace Libdap.Http
open Core Constraint
set_option autoImplicit false

def hopByHop : List Word :=
  ["Connection".toList, "Keep-Alive".toList, "Proxy-Authenticate".toList, "Proxy-Authorization".toList,
    "Transfer-Encoding".toList, "Upgrade".toList]

def isHopByHopHeader (header : Word) : Bool := hopByHop.any fun name => (find name header).isSome

/-- `fwrite` of one object without bytes writes none. -/
def writeHeader (header : Word) : Except Fault Word :=
  if header.isEmpty then .error (.InternalErr ("could not write header: '" ++ String.ofList header ++ "' 0"))
  else .ok (header ++ ['\n'])

/-- What `write_metadata` writes, into a file that takes it. -/
def writeMetadata : List Word → Except Fault Word
  | [] => .ok []
  | header :: headers =>
    if isHopByHopHeader header then writeMetadata headers
    else do
      let line ← writeHeader header
      let lines ← writeMetadata headers
      .ok (line ++ lines)

/-- What `write_metadata` writes, unless the file fails it. -/
def writeMetadataFile (failure : Option Fault) (headers : List Word) : Except Fault Word :=
  match failure with
  | some f => .error f
  | none => writeMetadata headers

/-- `line[min (1024, strlen (line)) - 1] = '\0'` -/
def eraseNewline (line : Word) : Except Fault Word :=
  if (cString line).isEmpty then .error .outOfBounds else .ok (cString line).dropLast

def readMetadata (file : Word) : Except Fault (List Word) := (piecesOf file).mapM eraseNewline

/-- A line of a response, without its end. -/
structure HeaderLine where
  text : Word
  oneLine : '\n' ∉ text
  noNull : Char.ofNat 0 ∉ text

/-- The headers that stay in the cache. -/
def endToEnd (headers : List HeaderLine) : List HeaderLine := headers.filter fun h => !isHopByHopHeader h.text

def fileOf (lines : List HeaderLine) : Word := lines.flatMap fun h => h.text ++ ['\n']

theorem writeMetadata_eq (headers : List HeaderLine) :
    (∀ h ∈ endToEnd headers, h.text ≠ []) ∧ writeMetadata (headers.map HeaderLine.text) =
      .ok (fileOf (endToEnd headers)) ∨
      (∃ h ∈ endToEnd headers, h.text = []) ∧ ∃ f, writeMetadata (headers.map HeaderLine.text) = .error f := by
  induction headers with
  | nil => exact .inl ⟨by simp [endToEnd], rfl⟩
  | cons h headers ih =>
    rw [List.map_cons, writeMetadata]
    by_cases hHop : isHopByHopHeader h.text = true
    · have hDropped : endToEnd (h :: headers) = endToEnd headers := by rw [endToEnd, List.filter_cons, hHop]; rfl
      rw [if_pos hHop, hDropped]
      exact ih
    · have hKept : endToEnd (h :: headers) = h :: endToEnd headers := by
        rw [Bool.not_eq_true] at hHop
        rw [endToEnd, List.filter_cons, hHop]
        rfl
      rw [if_neg hHop, hKept, writeHeader]
      by_cases hEmpty : h.text = []
      · rw [hEmpty]
        exact .inr ⟨⟨h, List.mem_cons_self, hEmpty⟩, _, rfl⟩
      · rw [if_neg (by simpa using hEmpty), ok_bind]
        rcases ih with ⟨hAll, hRest⟩ | ⟨⟨x, hx, hNil⟩, f, hRest⟩
        · left
          rw [hRest, ok_bind]
          refine ⟨?_, rfl⟩
          rintro x (_ | ⟨_, hx⟩)
          · exact hEmpty
          · exact hAll x hx
        · right
          rw [hRest]
          exact ⟨⟨x, List.mem_cons_of_mem h hx, hNil⟩, f, rfl⟩

/-- A line is read in one piece if it is short enough, and in more than one otherwise. -/
theorem piecesOf_length (n : Nat) {body : Word} (hBody : '\n' ∉ body) (hn : body.length ≤ n) (rest : Word) :
    ∃ m, 1 ≤ m ∧ (1023 ≤ body.length → 2 ≤ m) ∧
      (piecesOf (body ++ '\n' :: rest)).length = m + (piecesOf rest).length := by
  induction n generalizing body with
  | zero =>
    obtain rfl := List.length_eq_zero_iff.mp (Nat.le_zero.mp hn)
    refine ⟨1, Nat.le_refl 1, fun h => absurd h (by decide), ?_⟩
    rw [piecesOf_fgets (by simp), fgets_line rest hBody (by decide), List.length_cons, Nat.add_comm]
  | succ n ih =>
    rcases Nat.lt_or_ge body.length 1023 with hShort | hLong
    · refine ⟨1, Nat.le_refl 1, fun h => absurd h (Nat.not_le_of_lt hShort), ?_⟩
      rw [piecesOf_fgets (by simp), fgets_line rest hBody hShort, List.length_cons, Nat.add_comm]
    · have hTail : '\n' ∉ body.drop 1023 := fun h => hBody (List.mem_of_mem_drop h)
      obtain ⟨m, hm, -, hCount⟩ := ih hTail (by rw [List.length_drop]; omega)
      refine ⟨m + 1, Nat.le_add_left 1 m, fun _ => Nat.succ_le_succ hm, ?_⟩
      rw [piecesOf_fgets (by simp), fgets_long _ hBody hLong, List.length_cons, hCount]
      omega

theorem piecesOf_fileOf_length (lines : List HeaderLine) : lines.length ≤ (piecesOf (fileOf lines)).length ∧
    ((piecesOf (fileOf lines)).length = lines.length → ∀ h ∈ lines, h.text.length ≤ 1022) := by
  induction lines with
  | nil => exact ⟨Nat.zero_le _, fun _ h hh => absurd hh (List.not_mem_nil)⟩
  | cons line lines ih =>
    obtain ⟨m, hm, hLong, hCount⟩ := piecesOf_length _ line.oneLine (Nat.le_refl _) (fileOf lines)
    have hFile : fileOf (line :: lines) = line.text ++ '\n' :: fileOf lines := by
      rw [fileOf, List.flatMap_cons, List.append_assoc]
      rfl
    obtain ⟨hLe, hAll⟩ := ih
    rw [hFile, hCount, List.length_cons]
    refine ⟨by omega, fun hEq => ?_⟩
    rintro h (_ | ⟨_, hh⟩)
    · by_contra hMore
      have hTwo := hLong (by omega)
      omega
    · exact hAll (by omega) h hh

theorem eraseNewline_line (line : HeaderLine) : eraseNewline (line.text ++ ['\n']) = .ok line.text := by
  have hString : cString (line.text ++ ['\n']) = line.text ++ ['\n'] := by
    rw [cString, List.takeWhile_eq_self_iff]
    intro c hc
    rcases List.mem_append.mp hc with hc | hc
    · have hNull : c ≠ Char.ofNat 0 := fun h => line.noNull (h ▸ hc)
      simpa using hNull
    · rw [List.mem_singleton.mp hc]
      decide
  rw [eraseNewline, hString, if_neg (by simp), List.dropLast_concat]

theorem readMetadata_short {lines : List HeaderLine} (h : ∀ line ∈ lines, line.text.length ≤ 1022) :
    readMetadata (fileOf lines) = .ok (lines.map HeaderLine.text) := by
  rw [readMetadata]
  induction lines with
  | nil => rfl
  | cons line lines ih =>
    have hFile : fileOf (line :: lines) = line.text ++ '\n' :: fileOf lines := by
      rw [fileOf, List.flatMap_cons, List.append_assoc]
      rfl
    have hShort := h line List.mem_cons_self
    rw [hFile, piecesOf_fgets (by simp), fgets_line _ line.oneLine (by omega), List.mapM_cons, eraseNewline_line,
      ok_bind, ih fun x hx => h x (List.mem_cons_of_mem line hx)]
    rfl

theorem mapM_length {α β : Type} {f : α → Except Fault β} {as : List α} {bs : List β} (h : as.mapM f = .ok bs) :
    bs.length = as.length := by
  induction as generalizing bs with
  | nil =>
    cases h
    rfl
  | cons a as ih =>
    rw [List.mapM_cons] at h
    obtain ⟨b, -, h⟩ := bind_eq_ok h
    obtain ⟨bs', hRest, h⟩ := bind_eq_ok h
    cases h
    rw [List.length_cons, List.length_cons, ih hRest]

/-- The headers that are not hop-by-hop are read back as they were if and only if none of them is empty and none has
more than 1022 characters. -/
theorem metadata_read_back (headers : List HeaderLine) :
    (writeMetadata (headers.map HeaderLine.text) >>= readMetadata) = .ok ((endToEnd headers).map HeaderLine.text) ↔
      ∀ h ∈ headers, isHopByHopHeader h.text = true ∨ h.text ≠ [] ∧ h.text.length ≤ 1022 := by
  have hMem : ∀ h, h ∈ endToEnd headers ↔ h ∈ headers ∧ isHopByHopHeader h.text = false := by
    intro h
    rw [endToEnd, List.mem_filter, Bool.not_eq_true']
  constructor
  · intro hRun h hh
    by_cases hHop : isHopByHopHeader h.text = true
    · exact .inl hHop
    · rw [Bool.not_eq_true] at hHop
      have hKept := (hMem h).mpr ⟨hh, hHop⟩
      rcases writeMetadata_eq headers with ⟨hAll, hWritten⟩ | ⟨-, f, hWritten⟩
      · rw [hWritten, ok_bind] at hRun
        have hLength := mapM_length hRun
        rw [List.length_map] at hLength
        exact .inr ⟨hAll h hKept, (piecesOf_fileOf_length _).2 hLength.symm h hKept⟩
      · rw [hWritten] at hRun
        cases hRun
  · intro hShort
    have hLines : ∀ h ∈ endToEnd headers, h.text ≠ [] ∧ h.text.length ≤ 1022 := by
      intro h hh
      obtain ⟨hIn, hHop⟩ := (hMem h).mp hh
      rcases hShort h hIn with hBad | hGood
      · rw [hHop] at hBad
        cases hBad
      · exact hGood
    rcases writeMetadata_eq headers with ⟨-, hWritten⟩ | ⟨⟨h, hh, hNil⟩, -⟩
    · rw [hWritten, ok_bind]
      exact readMetadata_short fun h hh => (hLines h hh).2
    · exact absurd hNil (hLines h hh).1

/-- A header of 1023 characters. -/
def longHeader : HeaderLine where
  text := List.replicate 1023 'x'
  oneLine h := absurd (List.eq_of_mem_replicate h) (by decide)
  noNull h := absurd (List.eq_of_mem_replicate h) (by decide)

set_option maxRecDepth 20000 in
theorem long_header_cut : ¬ ∀ headers : List HeaderLine,
    (writeMetadata (headers.map HeaderLine.text) >>= readMetadata) = .ok ((endToEnd headers).map HeaderLine.text) := by
  intro hAll
  have hRun := hAll [longHeader]
  have hHop : isHopByHopHeader longHeader.text = false := by decide
  have hKept : endToEnd [longHeader] = [longHeader] := by rw [endToEnd, List.filter_cons, hHop]; rfl
  rcases writeMetadata_eq [longHeader] with ⟨-, hWritten⟩ | ⟨-, f, hWritten⟩
  · rw [hWritten, ok_bind] at hRun
    have hLength := mapM_length hRun
    rw [List.length_map, hKept] at hLength
    have hShort := (piecesOf_fileOf_length [longHeader]).2 hLength.symm longHeader List.mem_cons_self
    rw [longHeader, List.length_replicate] at hShort
    exact absurd hShort (by decide)
  · rw [hWritten] at hRun
    cases hRun

end Libdap.Http

/-! ## The headers after a conditional request

`update_response` puts the new headers into a set and then the old ones, which drops those whose name is there.
The set tells names apart by their letters, capital or not.
-/

namespace Libdap.Http
open Core Constraint HTTPCacheTable
set_option autoImplicit false

/-- What `HeaderLess` compares: the text up to the first colon, or all of it. -/
def nameOf (header : Word) : Word := header.takeWhile (· ≠ ':')

/-- The set read from its end. -/
def mergedHeaders (headers oldHeaders : List Word) : List Word :=
  (((KeyedSet.empty : KeyedSet nameOf).insertAll headers).insertAll oldHeaders).elems.reverse

def noEntry (url : Word) : Fault := .Error ("There is no cache entry for the URL: " ++ String.ofList url)

/-- The `try` of `HTTPCache::update_response`, for the entry at `a`. `oldHeaders` is what `read_metadata` gives,
`failure` how the file fails `write_metadata`, and the headers that are returned are those that it is called with. -/
def updateEntry (now responseTime : Int) (maxEntrySize : Nat) (defaultExpiration requestTime : Int)
    (headers : List Word) (oldHeaders : Except Fault (List Word)) (failure : Option Fault) (a : Nat) :
    Call HTTPCacheTable (List Word) := do
  let e ← readEntry a
  let parsed ← orWait (parseHeaders now maxEntrySize e headers)
  modify (setEntry a (calculateTime responseTime parsed defaultExpiration requestTime))
  let oldHeaders ← Call.ofExcept oldHeaders
  let result := mergedHeaders headers oldHeaders
  let _ ← Call.ofExcept (writeMetadataFile failure result)
  unlockWriteResponse a
  pure result

/-- `HTTPCache::update_response`. What went wrong gives the lock back as if it were one for reading. -/
def updateResponse (now responseTime : Int) (maxEntrySize : Nat) (defaultExpiration requestTime : Int) (url : Word)
    (headers : List Word) (oldHeaders : Except Fault (List Word)) (failure : Option Fault) :
    Call HTTPCacheTable (List Word) := do
  match ← getWriteLockedEntry url with
  | none => throw (noEntry url)
  | some a =>
    tryCatch (updateEntry now responseTime maxEntrySize defaultExpiration requestTime headers oldHeaders failure a)
      fun f => do
        unlockReadResponse a
        throw f

/-! ## One header of every name -/

def SameName (a b : Word) : Prop := (nameOf a).map Char.toLower = (nameOf b).map Char.toLower

instance (a b : Word) : Decidable (SameName a b) := inferInstanceAs (Decidable (_ = _))

/-- Of every name in the lists there is one header, a new one if there is one. -/
structure Merged (headers oldHeaders written : List Word) : Prop where
  listed : ∀ h ∈ written, h ∈ headers ∨ h ∈ oldHeaders ∧ ∀ k ∈ headers, ¬ SameName k h
  single : ∀ k ∈ headers ++ oldHeaders, ∃ h, written.filter (fun x => SameName k x) = [h]

/-- A name is spelled with the same capitals wherever it is. -/
def OneSpelling (headers : List Word) : Prop := ∀ a ∈ headers, ∀ b ∈ headers, SameName a b → nameOf a = nameOf b

variable {headers oldHeaders : List Word}

theorem mem_mergedHeaders {h : Word} (hMem : h ∈ mergedHeaders headers oldHeaders) :
    h ∈ headers ∨ h ∈ oldHeaders ∧ ∀ k ∈ headers, nameOf k ≠ nameOf h := by
  obtain hNew | ⟨hOld, hFree⟩ := KeyedSet.mem_of_mem_insertAll (List.mem_reverse.mp hMem)
  · obtain hEmpty | ⟨hNew, -⟩ := KeyedSet.mem_of_mem_insertAll hNew
    · cases hEmpty
    · exact .inl hNew
  · refine .inr ⟨hOld, fun k hk hName => ?_⟩
    obtain ⟨z, hz, hKey⟩ := KeyedSet.key_taken (KeyedSet.empty : KeyedSet nameOf) hk
    exact hFree z hz (hKey.trans hName)

theorem name_merged {k : Word} (hk : k ∈ headers ++ oldHeaders) :
    ∃ h ∈ mergedHeaders headers oldHeaders, nameOf h = nameOf k := by
  obtain hNew | hOld := List.mem_append.mp hk
  · obtain ⟨z, hz, hKey⟩ := KeyedSet.key_taken (KeyedSet.empty : KeyedSet nameOf) hNew
    exact ⟨z, List.mem_reverse.mpr (KeyedSet.mem_insertAll_of_mem oldHeaders hz), hKey⟩
  · obtain ⟨z, hz, hKey⟩ := KeyedSet.key_taken ((KeyedSet.empty : KeyedSet nameOf).insertAll headers) hOld
    exact ⟨z, List.mem_reverse.mpr hz, hKey⟩

theorem mergedHeaders_nodup (headers oldHeaders : List Word) : (mergedHeaders headers oldHeaders).Nodup := by
  apply List.nodup_reverse.mpr
  apply (KeyedSet.ordered _).imp
  rintro a b hLess rfl
  exact lt_irrefl _ hLess

theorem mergedHeaders_unique {a b : Word} (ha : a ∈ mergedHeaders headers oldHeaders)
    (hb : b ∈ mergedHeaders headers oldHeaders) (hName : nameOf a = nameOf b) : a = b :=
  KeyedSet.eq_of_key_eq _ (List.mem_reverse.mp ha) (List.mem_reverse.mp hb) hName

/-- A list without repetition, of which every element is the same one. -/
theorem eq_singleton {α : Type} {l : List α} {a : α} (hNodup : l.Nodup) (ha : a ∈ l) (hAll : ∀ x ∈ l, x = a) :
    l = [a] := by
  cases l with
  | nil => cases ha
  | cons x l =>
    obtain rfl := hAll x List.mem_cons_self
    cases l with
    | nil => rfl
    | cons y l =>
      obtain rfl := hAll y (List.mem_cons_of_mem _ List.mem_cons_self)
      exact absurd List.mem_cons_self (List.nodup_cons.mp hNodup).1

theorem merged_of_oneSpelling (h : OneSpelling (headers ++ oldHeaders)) :
    Merged headers oldHeaders (mergedHeaders headers oldHeaders) where
  listed x hx := by
    obtain hNew | ⟨hOld, hFree⟩ := mem_mergedHeaders hx
    · exact .inl hNew
    · refine .inr ⟨hOld, fun k hk hSame => hFree k hk ?_⟩
      exact h k (List.mem_append_left _ hk) x (List.mem_append_right _ hOld) hSame
  single k hk := by
    have hIn : ∀ x ∈ mergedHeaders headers oldHeaders, x ∈ headers ++ oldHeaders := by
      intro x hx
      obtain hNew | ⟨hOld, -⟩ := mem_mergedHeaders hx
      · exact List.mem_append_left _ hNew
      · exact List.mem_append_right _ hOld
    obtain ⟨z, hz, hName⟩ := name_merged hk
    refine ⟨z, eq_singleton ((mergedHeaders_nodup headers oldHeaders).filter _) ?_ ?_⟩
    · have hSame : SameName k z := congrArg (List.map Char.toLower) hName.symm
      exact List.mem_filter.mpr ⟨hz, decide_eq_true hSame⟩
    · intro x hx
      obtain ⟨hx, hSame⟩ := List.mem_filter.mp hx
      have hSpelled := h k hk x (hIn x hx) (of_decide_eq_true hSame)
      exact mergedHeaders_unique hx hz (hSpelled.symm.trans hName.symm)

theorem oneSpelling_of_merged (h : Merged headers oldHeaders (mergedHeaders headers oldHeaders)) :
    OneSpelling (headers ++ oldHeaders) := by
  intro a ha b hb hSame
  obtain ⟨x, hOnly⟩ := h.single a ha
  obtain ⟨y, hy, hNameA⟩ := name_merged ha
  obtain ⟨z, hz, hNameB⟩ := name_merged hb
  have hSameA : SameName a y := congrArg (List.map Char.toLower) hNameA.symm
  have hSameB : SameName a z := hSame.trans (congrArg (List.map Char.toLower) hNameB.symm)
  -- Both are kept, since the set has one of each spelling.
  have hyOnly : y ∈ [x] := hOnly ▸ List.mem_filter.mpr ⟨hy, decide_eq_true hSameA⟩
  have hzOnly : z ∈ [x] := hOnly ▸ List.mem_filter.mpr ⟨hz, decide_eq_true hSameB⟩
  rw [← hNameA, ← hNameB, List.mem_singleton.mp hyOnly, List.mem_singleton.mp hzOnly]

/-- What is written back is the merged list. -/
theorem updateResponse_merged {now responseTime defaultExpiration requestTime : Int} {maxEntrySize : Nat}
    {url : Word} {failure : Option Fault} {written : List Word} {t t' : HTTPCacheTable}
    (h : updateResponse now responseTime maxEntrySize defaultExpiration requestTime url headers (.ok oldHeaders) failure
      t = .ok written t') : written = mergedHeaders headers oldHeaders := by
  obtain ⟨address, t₁, -, h⟩ := Call.bind_ok.mp h
  cases address with
  | none => exact absurd h Call.throw_not_ok
  | some a =>
    obtain hBody | ⟨f, t₂, -, hHandler⟩ := Call.tryCatch_ok.mp h
    · obtain ⟨e, t₂, -, hBody⟩ := Call.bind_ok.mp hBody
      obtain ⟨parsed, t₃, -, hBody⟩ := Call.bind_ok.mp hBody
      obtain ⟨_, t₄, -, hBody⟩ := Call.bind_ok.mp hBody
      obtain ⟨old, t₅, hOld, hBody⟩ := Call.bind_ok.mp hBody
      obtain ⟨hOld, -⟩ := Call.ofExcept_ok.mp hOld
      obtain rfl := Except.ok.inj hOld
      obtain ⟨_, t₆, -, hBody⟩ := Call.bind_ok.mp hBody
      obtain ⟨_, t₇, -, hBody⟩ := Call.bind_ok.mp hBody
      exact (Call.pure_ok.mp hBody).1
    · obtain ⟨_, t₃, -, hThrow⟩ := Call.bind_ok.mp hHandler
      exact absurd hThrow Call.throw_not_ok

/-- The headers that `update_response` writes back are one of every name, whatever its capitals, if and only if no name
comes with different ones. -/
theorem headers_merged_iff {now responseTime defaultExpiration requestTime : Int} {maxEntrySize : Nat} {url : Word}
    {failure : Option Fault} {written : List Word} {t t' : HTTPCacheTable}
    (h : updateResponse now responseTime maxEntrySize defaultExpiration requestTime url headers (.ok oldHeaders) failure
      t = .ok written t') : Merged headers oldHeaders written ↔ OneSpelling (headers ++ oldHeaders) := by
  rw [updateResponse_merged h]
  exact ⟨oneSpelling_of_merged, merged_of_oneSpelling⟩

/-- A table with one entry, for the empty URL. -/
def oneEntry : HTTPCacheTable :=
  { HTTPCacheTable.new 4096 with slots := fun s => if s = 0 then [some (0, CacheEntry.new [])] else [] }

set_option maxRecDepth 20000 in
theorem etag_run : ∃ t', updateResponse 0 0 0 0 0 [] ["ETag: b".toList] (.ok ["ETag: a".toList, "Age: 3".toList])
    none oneEntry = .ok ["ETag: b".toList, "Age: 3".toList] t' := ⟨_, rfl⟩

theorem etag_replaced : Merged ["ETag: b".toList] ["ETag: a".toList, "Age: 3".toList]
    ["ETag: b".toList, "Age: 3".toList] := by
  obtain ⟨t', hRun⟩ := etag_run
  apply (headers_merged_iff hRun).mpr
  rw [OneSpelling]
  decide

set_option maxRecDepth 20000 in
/-- The old value is kept beside the new one. -/
theorem capitals_tell_headers_apart :
    (∃ t', updateResponse 0 0 0 0 0 [] ["age: 5".toList] (.ok ["Age: 3".toList]) none oneEntry =
      .ok ["age: 5".toList, "Age: 3".toList] t') ∧
    ¬ Merged ["age: 5".toList] ["Age: 3".toList] ["age: 5".toList, "Age: 3".toList] := by
  refine ⟨⟨_, rfl⟩, fun h => ?_⟩
  obtain ⟨x, hOnly⟩ := h.single "age: 5".toList List.mem_cons_self
  have hLength := congrArg List.length hOnly
  rw [List.length_singleton] at hLength
  exact absurd hLength (by decide)

end Libdap.Http
