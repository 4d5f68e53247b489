import Mathlib.Data.Fintype.EquivFin
import Mathlib.Data.List.Pairwise
import Mathlib.Logic.Relation
import Libdap.Bes.KeyLines

/-! # Files that include each other

What guards against loading a file again is the list of the paths that were loaded. The loading ends, with each file
loaded once, when a file has one path only and no include leads back to the first file.
-/

namespace Libdap.Bes
open Constraint Http Relation
set_option autoImplicit false

namespace FileSystem

variable {File : Type} (fs : FileSystem File)

/-- The file at one path has an include for another path. -/
def Includes (path included : Word) : Prop :=
  ∃ f, fs.file path = some f ∧ ∃ line ∈ lines (fs.content f), ∃ p, breakPair path line = .ok (some p) ∧
    p.key = BES_INCLUDE_KEY ∧ ∃ paths, fs.includeFiles path p.value = .ok paths ∧ included ∈ paths

/-- The paths that loading one file leads to. -/
def LeadsTo : Word → Word → Prop := TransGen fs.Includes

/-- No include leads back to the first file, and every other one is reached by one path. -/
structure OnePath (root : Word) : Prop where
  first : ∀ path f, fs.LeadsTo root path → fs.file path = some f → fs.file root ≠ some f
  others : ∀ path path' f, fs.LeadsTo root path → fs.LeadsTo root path' → fs.file path = some f →
    fs.file path' = some f →
    path = path'

/-- No line is too long in any of the files. -/
def Readable (root : Word) : Prop :=
  ∀ path f, path = root ∨ fs.LeadsTo root path → fs.file path = some f → Fits path (lines (fs.content f))

end FileSystem

/-- The files that were loaded when loading came to its end. -/
def openedIn {File : Type} : LoadResult File → List File
  | .ok _ s => s.opened
  | .error _ s => s.opened

def stateIn {File : Type} : LoadResult File → Loaded File
  | .ok _ s => s
  | .error _ s => s

open FileSystem

section
variable {File : Type} {fs : FileSystem File} {s s' : Loaded File} {r : LoadResult File} {path line : Word}
  {paths : List Word}
  {n m : Nat} {stream stream' : IStream}

/-! ## Results -/

/-- What a run comes to with enough rounds. -/
def Comes (x : Nat → Option (LoadResult File)) (r : LoadResult File) : Prop := ∃ n, ∀ m, n ≤ m → x m = some r

def Loads (fs : FileSystem File) (path : Word) (stream : IStream) (s : Loaded File) : LoadResult File → Prop :=
  Comes fun n => fs.loadKeys n path stream s

def Initializes (fs : FileSystem File) (path : Word) (s : Loaded File) : LoadResult File → Prop :=
  Comes fun n => fs.initializeKeys (fs.loadKeys n) path s

def LoadsEach (fs : FileSystem File) (paths : List Word) (s : Loaded File) : LoadResult File → Prop :=
  Comes fun n => loadEach (fs.initializeKeys (fs.loadKeys n)) paths s

def Processes (fs : FileSystem File) (path line : Word) (s : Loaded File) : LoadResult File → Prop :=
  Comes fun n => fs.processLine (fs.initializeKeys (fs.loadKeys n)) path line s

theorem Comes.always {x : Nat → Option (LoadResult File)} (h : ∀ n, x n = some r) : Comes x r := ⟨0, fun n _ => h n⟩

theorem Comes.shift {x : Nat → Option (LoadResult File)} (h : Comes (fun n => x (n + 1)) r) : Comes x r := by
  obtain ⟨n, hRun⟩ := h
  refine ⟨n + 1, fun m hm => ?_⟩
  obtain ⟨k, rfl⟩ : ∃ k, m = k + 1 := ⟨m - 1, by omega⟩
  exact hRun k (by omega)

theorem Comes.map {x z : Nat → Option (LoadResult File)} {r' : LoadResult File} (hFirst : Comes x r')
    (h : ∀ n, x n = some r' → z n = some r) : Comes z r := by
  obtain ⟨n, hx⟩ := hFirst
  exact ⟨n, fun k hk => h k (hx k hk)⟩

/-- One run, and on its state another one. -/
theorem Comes.andThen {x y z : Nat → Option (LoadResult File)} {r' : LoadResult File} (hFirst : Comes x r')
    (hNext : Comes y r)
    (h : ∀ n, x n = some r' → y n = some r → z n = some r) : Comes z r := by
  obtain ⟨n, hx⟩ := hFirst
  obtain ⟨m, hy⟩ := hNext
  exact ⟨max n m, fun k hk => h k (hx k (by omega)) (hy k (by omega))⟩

theorem loads_eof (h : stream.eof = true) : Loads fs path stream s (.ok () s) := by
  apply Comes.shift
  apply Comes.always
  intro n
  rw [loadKeys, if_pos h]

theorem loads_skip (hEof : stream.eof = false) (hLine : stream.getline 255 = (none, stream'))
    (h : Loads fs path stream' s r) :
    Loads fs path stream s r := by
  apply Comes.shift
  apply h.map
  intro n hRun
  rw [loadKeys, hEof, if_neg Bool.false_ne_true, hLine]
  exact hRun

theorem loads_line (hEof : stream.eof = false) (hLine : stream.getline 255 = (some line, stream'))
    (hFirst : Processes fs path line s (.ok () s')) (h : Loads fs path stream' s' r) : Loads fs path stream s r := by
  apply Comes.shift
  apply hFirst.andThen h
  intro n hProcess hRest
  rw [loadKeys, hEof, if_neg Bool.false_ne_true, hLine]
  dsimp only
  rw [hProcess]
  exact hRest

theorem loads_throws {e : BESError} (hEof : stream.eof = false) (hLine : stream.getline 255 = (some line, stream'))
    (hFirst : Processes fs path line s (.error e s')) : Loads fs path stream s (.error e s') := by
  apply Comes.shift
  apply hFirst.map
  intro n hRun
  rw [loadKeys, hEof, if_neg Bool.false_ne_true, hLine]
  dsimp only
  rw [hRun]

theorem loadsEach_nil : LoadsEach fs [] s (.ok () s) := Comes.always fun _ => rfl

theorem loadsEach_recorded (hMem : path ∈ s.keyList) (h : LoadsEach fs paths s r) :
    LoadsEach fs (path :: paths) s r := by
  apply h.map
  intro n hRun
  rw [loadEach, loadIncludeFile, if_pos (List.contains_iff_mem.mpr hMem)]
  exact hRun

theorem loadsEach_new (hNot : path ∉ s.keyList) (hFirst : Initializes fs path { s with keyList := s.keyList ++ [path] }
    (.ok () s'))
    (h : LoadsEach fs paths s' r) : LoadsEach fs (path :: paths) s r := by
  apply hFirst.andThen h
  intro n hLoad hRest
  rw [loadEach, loadIncludeFile, if_neg fun hMem => hNot (List.contains_iff_mem.mp hMem), hLoad]
  exact hRest

theorem loadsEach_throws {e : BESError} (hNot : path ∉ s.keyList)
    (hFirst : Initializes fs path { s with keyList := s.keyList ++ [path] } (.error e s')) :
    LoadsEach fs (path :: paths) s (.error e s') := by
  apply hFirst.map
  intro n hRun
  rw [loadEach, loadIncludeFile, if_neg fun hMem => hNot (List.contains_iff_mem.mp hMem), hRun]

theorem initializes_cannot (h : fs.file path = none) : Initializes fs path s (.error (fs.cannotOpen path) s) := by
  apply Comes.always
  intro n
  rw [initializeKeys, h]

/-- The result of a file's lines, with an error made fatal. -/
def fatal : LoadResult File → LoadResult File
  | .ok _ s => .ok () s
  | .error e s => .error (.internalFatal e.message) s

theorem initializes_file {f : File} (hFile : fs.file path = some f)
    (h : Loads fs path (.of (fs.content f)) { s with opened := s.opened ++ [f] } r) :
      Initializes fs path s (fatal r) := by
  apply h.map
  intro n hRun
  rw [initializeKeys, hFile]
  dsimp only
  rw [hRun]
  cases r <;> rfl

/-! ## One path for each file -/

/-- The files that are loaded are those of the recorded paths, after the first file. -/
structure Recorded (fs : FileSystem File) (root : Word) (first : File) (s : Loaded File) : Prop where
  reached : ∀ path ∈ s.keyList, fs.LeadsTo root path
  nodup : s.keyList.Nodup
  opened : s.opened = first :: s.keyList.filterMap fs.file

theorem Recorded.opened_nodup {root : Word} {first : File} (h : Recorded fs root first s)
    (hFirst : fs.file root = some first)
    (hOne : fs.OnePath root) : s.opened.Nodup := by
  rw [h.opened, List.nodup_cons]
  constructor
  · intro hMem
    obtain ⟨path, hPath, hSame⟩ := List.mem_filterMap.mp hMem
    exact hOne.first path first (h.reached path hPath) hSame hFirst
  · rw [List.Nodup, List.pairwise_filterMap]
    refine h.nodup.imp_of_mem ?_
    rintro path path' hPath hPath' hNe f hf _ hf' rfl
    exact hNe (hOne.others path path' f (h.reached path hPath) (h.reached path' hPath') hf hf')

/-- A result that keeps the record and has not fewer files. -/
def Kept (fs : FileSystem File) (root : Word) (first : File) (s : Loaded File) (r : LoadResult File) : Prop :=
  Recorded fs root first (stateIn r) ∧ s.opened.length ≤ (stateIn r).opened.length

theorem Kept.refl {root : Word} {first : File} (h : Recorded fs root first s) : Kept fs root first s (.ok () s) :=
  ⟨h, Nat.le_refl _⟩

theorem Kept.trans {root : Word} {first : File} (h : Kept fs root first s (.ok () s'))
    (hNext : Kept fs root first s' r) :
    Kept fs root first s r :=
  ⟨hNext.1, h.2.trans hNext.2⟩

theorem Recorded.with_path {root : Word} {first f : File} (h : Recorded fs root first s) (hNot : path ∉ s.keyList)
    (hReached : fs.LeadsTo root path) (hFile : fs.file path = some f) :
    Recorded fs root first { s with keyList := s.keyList ++ [path], opened := s.opened ++ [f] } where
  reached q hq := by
    rcases List.mem_append.mp hq with hOld | hNew
    · exact h.reached q hOld
    · rw [List.mem_singleton.mp hNew]
      exact hReached
  nodup := by
    rw [List.nodup_append]
    refine ⟨h.nodup, List.nodup_singleton path, ?_⟩
    rintro q hq _ hMem rfl
    rw [List.mem_singleton.mp hMem] at hq
    exact hNot hq
  opened := by simp [h.opened, hFile]

theorem Recorded.with_lost {root : Word} {first : File} (h : Recorded fs root first s) (hNot : path ∉ s.keyList)
    (hReached : fs.LeadsTo root path) (hFile : fs.file path = none) :
    Recorded fs root first { s with keyList := s.keyList ++ [path] } where
  reached q hq := by
    rcases List.mem_append.mp hq with hOld | hNew
    · exact h.reached q hOld
    · rw [List.mem_singleton.mp hNew]
      exact hReached
  nodup := by
    rw [List.nodup_append]
    refine ⟨h.nodup, List.nodup_singleton path, ?_⟩
    rintro q hq _ hMem rfl
    rw [List.mem_singleton.mp hMem] at hq
    exact hNot hq
  opened := by simp [h.opened, hFile]

variable {root : Word} {first : File} {k : Nat}

theorem Recorded.with_keys (h : Recorded fs root first s) (keys : Keys) :
    Recorded fs root first { s with keys := keys } :=
  ⟨h.reached, h.nodup, h.opened⟩

/-- With room for so many more files, an included file is loaded. -/
def CanLoad [Fintype File] (fs : FileSystem File) (root : Word) (first : File) (k : Nat) : Prop :=
  ∀ path f s, fs.LeadsTo root path → fs.file path = some f → Recorded fs root first s →
    Fintype.card File ≤ s.opened.length + k → ∃ r, Loads fs path (.of (fs.content f)) s r ∧ Kept fs root first s r

theorem loadsEach_kept [Fintype File] (hFirst : fs.file root = some first) (hOne : fs.OnePath root)
    (hCan : ∀ j < k, CanLoad fs root first j) (hReached : ∀ path ∈ paths, fs.LeadsTo root path)
    (h : Recorded fs root first s)
    (hRoom : Fintype.card File ≤ s.opened.length + k) : ∃ r, LoadsEach fs paths s r ∧ Kept fs root first s r := by
  induction paths generalizing s with
  | nil => exact ⟨_, loadsEach_nil, .refl h⟩
  | cons path paths ih =>
    have hPaths : ∀ q ∈ paths, fs.LeadsTo root q := fun q hq => hReached q (List.mem_cons_of_mem _ hq)
    have hPath := hReached path List.mem_cons_self
    by_cases hMem : path ∈ s.keyList
    · obtain ⟨r, hLoads, hKept⟩ := ih hPaths h hRoom
      exact ⟨r, loadsEach_recorded hMem hLoads, hKept⟩
    cases hFile : fs.file path with
    | none => exact ⟨_, loadsEach_throws hMem (initializes_cannot hFile), h.with_lost hMem hPath hFile, Nat.le_refl _⟩
    | some f =>
      have hNew := h.with_path hMem hPath hFile
      -- the new file is none of those that were loaded, so there was room for one more
      have hCard := (hNew.opened_nodup hFirst hOne).length_le_card
      rw [List.length_append, List.length_singleton] at hCard
      obtain ⟨j, rfl⟩ : ∃ j, k = j + 1 := ⟨k - 1, by omega⟩
      obtain ⟨r, hLoads, hKept⟩ := hCan j (Nat.lt_succ_self j) path f _ hPath hFile hNew
        (by rw [List.length_append, List.length_singleton]; omega)
      have hMore := hKept.2
      rw [List.length_append, List.length_singleton] at hMore
      have hInit := initializes_file (s := { s with keyList := s.keyList ++ [path] }) hFile hLoads
      cases r with
      | ok _ t =>
        have hGrown : s.opened.length + 1 ≤ t.opened.length := hMore
        obtain ⟨r, hRest, hRestKept⟩ := ih hPaths (s := t) hKept.1 (by omega)
        exact ⟨r, loadsEach_new hMem hInit hRest, hRestKept.1, (Nat.le_of_succ_le hMore).trans hRestKept.2⟩
      | error e t => exact ⟨_, loadsEach_throws hMem hInit, hKept.1, Nat.le_of_succ_le hMore⟩

theorem processes_kept [Fintype File] (hFirst : fs.file root = some first) (hOne : fs.OnePath root)
    (hCan : ∀ j < k, CanLoad fs root first j) {f : File} (hPath : path = root ∨ fs.LeadsTo root path)
    (hFile : fs.file path = some f)
    (hLine : line ∈ lines (fs.content f)) (h : Recorded fs root first s)
    (hRoom : Fintype.card File ≤ s.opened.length + k) :
    ∃ r, Processes fs path line s r ∧ Kept fs root first s r := by
  cases hPair : breakPair path line with
  | error e =>
    refine ⟨.error e s, Comes.always fun n => ?_, h, Nat.le_refl _⟩
    rw [processLine, hPair]
  | ok p? =>
    cases p? with
    | none =>
      refine ⟨.ok () s, Comes.always fun n => ?_, .refl h⟩
      rw [processLine, hPair]
    | some p =>
      by_cases hKey : p.key = BES_INCLUDE_KEY
      · have hSet := h.with_keys (s.keys.setKey p.key p.value true)
        cases hPaths : fs.includeFiles path p.value with
        | error e =>
          refine ⟨.error e _, Comes.always fun n => ?_, hSet, Nat.le_refl _⟩
          rw [processLine, hPair]
          dsimp only
          rw [if_pos hKey, loadIncludeFiles, hPaths]
        | ok paths =>
          have hReached : ∀ q ∈ paths, fs.LeadsTo root q := by
            intro q hq
            have hIncludes : fs.Includes path q := ⟨f, hFile, line, hLine, p, hPair, hKey, paths, hPaths, hq⟩
            rcases hPath with rfl | hLed
            · exact .single hIncludes
            · exact hLed.tail hIncludes
          obtain ⟨r, hLoads, hKept⟩ := loadsEach_kept hFirst hOne hCan hReached hSet hRoom
          refine ⟨r, hLoads.map fun n hRun => ?_, hKept⟩
          rw [processLine, hPair]
          dsimp only
          rw [if_pos hKey, loadIncludeFiles, hPaths]
          exact hRun
      · refine ⟨.ok () { s with keys := s.keys.setKey p.key p.value p.addto }, Comes.always fun n => ?_, h.with_keys _,
          Nat.le_refl _⟩
        rw [processLine, hPair]
        dsimp only
        rw [if_neg hKey]

/-- A refused line is not taken. -/
theorem not_processes_ok (h : refused path line = true) : ¬Processes fs path line s (.ok () s') := by
  rintro ⟨n, hRun⟩
  obtain ⟨e, hThrows⟩ := processLine_refused fs (fs.initializeKeys (fs.loadKeys n)) s h
  have hSame := hThrows.symm.trans (hRun n (Nat.le_refl n))
  cases hSame

theorem loads_kept [Fintype File] (hFirst : fs.file root = some first) (hOne : fs.OnePath root)
    (hCan : ∀ j < k, CanLoad fs root first j) {f : File} (hPath : path = root ∨ fs.LeadsTo root path)
    (hFile : fs.file path = some f)
    {content : Word} (hPart : ∀ l ∈ lines content, l ∈ lines (fs.content f)) (hFits : Fits path (lines content))
    (h : Recorded fs root first s) (hRoom : Fintype.card File ≤ s.opened.length + k) :
    ∃ r, Loads fs path (.of content) s r ∧ Kept fs root first s r := by
  induction hLength : content.length using Nat.strong_induction_on generalizing content s with
  | _ length ih =>
    by_cases hBreak : '\n' ∈ content
    · obtain ⟨line, rest, rfl, hLine⟩ := List.eq_append_cons_of_mem hBreak
      rw [lines_line hLine] at hPart hFits
      obtain ⟨hShort, hRest⟩ := hFits
      have hGet := getline_line hLine hShort rest
      obtain ⟨r, hProcess, hKept⟩ := processes_kept hFirst hOne hCan hPath hFile (hPart line List.mem_cons_self) h hRoom
      cases r with
      | error e t => exact ⟨_, loads_throws rfl hGet hProcess, hKept⟩
      | ok _ t =>
        have hFitsRest := hRest.resolve_left fun hRefused => not_processes_ok hRefused hProcess
        obtain ⟨r, hLoads, hRestKept⟩ := ih rest.length (by rw [← hLength, List.length_append, List.length_cons]; omega)
          (fun l hl => hPart l (List.mem_cons_of_mem _ hl)) hFitsRest hKept.1
          (hRoom.trans (Nat.add_le_add_right hKept.2 k)) rfl
        exact ⟨r, loads_line rfl hGet hProcess hLoads, hKept.trans hRestKept⟩
    · rw [lines_last hBreak] at hPart hFits
      have hGet := getline_last hBreak hFits.1
      by_cases hEmpty : content = []
      · subst hEmpty
        rw [if_pos rfl] at hGet
        exact ⟨_, loads_skip rfl hGet (loads_eof rfl), .refl h⟩
      · rw [if_neg hEmpty] at hGet
        obtain ⟨r, hProcess, hKept⟩ := processes_kept hFirst hOne hCan hPath hFile
            (hPart content (List.mem_singleton_self _)) h hRoom
        cases r with
        | error e t => exact ⟨_, loads_throws rfl hGet hProcess, hKept⟩
        | ok _ t => exact ⟨_, loads_line rfl hGet hProcess (loads_eof rfl), hKept⟩

theorem canLoad [Fintype File] (hFirst : fs.file root = some first) (hOne : fs.OnePath root)
    (hReadable : fs.Readable root) (k : Nat) :
    CanLoad fs root first k := by
  induction k using Nat.strong_induction_on with
  | _ k ih =>
    intro path f s hPath hFile h hRoom
    exact loads_kept hFirst hOne ih (.inr hPath) hFile (fun _ hl => hl) (hReadable path f (.inr hPath) hFile) h hRoom

theorem load_once [Finite File] (hOne : fs.OnePath root) (hReadable : fs.Readable root) :
    ∃ r, Comes (fun n => fs.load n root) r ∧ (openedIn r).Nodup := by
  have := Fintype.ofFinite File
  cases hFirst : fs.file root with
  | none => exact ⟨_, initializes_cannot hFirst, List.nodup_nil⟩
  | some first =>
    have hStart : Recorded fs root first ⟨fun _ => none, [], [first]⟩ := ⟨nofun, List.nodup_nil, rfl⟩
    obtain ⟨r, hLoads, hKept⟩ := loads_kept hFirst hOne (fun j _ => canLoad hFirst hOne hReadable j) (.inl rfl) hFirst
        (fun _ hl => hl)
      (hReadable root first (.inl rfl) hFirst) hStart (Nat.le_add_left (Fintype.card File) _)
    refine ⟨fatal r, initializes_file hFirst hLoads, ?_⟩
    have hNodup := hKept.1.opened_nodup hFirst hOne
    cases r <;> exact hNodup

/-! ## Loading without an error -/

/-- What a line has an include for is among these paths. -/
def LineIn (fs : FileSystem File) (path line : Word) (known : List Word) : Prop :=
  ∀ p, breakPair path line = .ok (some p) → p.key = BES_INCLUDE_KEY → ∀ paths,
    fs.includeFiles path p.value = .ok paths →
    ∀ q ∈ paths, q ∈ known

/-- What the files at these paths have includes for is among those. -/
def ClosedIn (fs : FileSystem File) (paths known : List Word) : Prop := ∀ path ∈ paths, ∀ q, fs.Includes path q →
    q ∈ known

/-- Some paths are recorded, their files are loaded, and so is what they include. -/
structure Grown (fs : FileSystem File) (s s' : Loaded File) (new : List Word) : Prop where
  keyList : s'.keyList = s.keyList ++ new
  opened : s'.opened = s.opened ++ new.filterMap fs.file
  readable : ∀ path ∈ new, (fs.file path).isSome = true
  closed : ClosedIn fs new s'.keyList

theorem Grown.refl (h : s'.keyList = s.keyList ∧ s'.opened = s.opened) : Grown fs s s' [] where
  keyList := by rw [h.1, List.append_nil]
  opened := by rw [h.2, List.filterMap_nil, List.append_nil]
  readable := nofun
  closed := nofun

theorem Grown.sub {new : List Word} (h : Grown fs s s' new) : ∀ q ∈ s.keyList, q ∈ s'.keyList := by
  intro q hq
  rw [h.keyList]
  exact List.mem_append_left _ hq

theorem Grown.trans {t : Loaded File} {new newer : List Word} (h : Grown fs s s' new) (hNext : Grown fs s' t newer) :
    Grown fs s t (new ++ newer) where
  keyList := by rw [hNext.keyList, h.keyList, List.append_assoc]
  opened := by rw [hNext.opened, h.opened, List.filterMap_append, List.append_assoc]
  readable path hPath := (List.mem_append.mp hPath).elim (h.readable path) (hNext.readable path)
  closed path hPath q hq := (List.mem_append.mp hPath).elim (fun hOld => hNext.sub q (h.closed path hOld q hq))
    fun hNew => hNext.closed path hNew q hq

/-- When the file at a path is loaded, its includes are recorded. -/
def LoadsClosed (fs : FileSystem File) (load : Word → Loaded File → Option (LoadResult File)) : Prop :=
  ∀ path s s', load path s = some (.ok () s') → ∃ f new, fs.file path = some f ∧
    Grown fs { s with opened := s.opened ++ [f] } s' new ∧ ∀ line ∈ lines (fs.content f), LineIn fs path line s'.keyList

theorem includes_known {f : File} {known : List Word} (hFile : fs.file path = some f)
    (h : ∀ line ∈ lines (fs.content f), LineIn fs path line known) {q : Word} (hIncludes : fs.Includes path q) :
      q ∈ known := by
  obtain ⟨f', hFile', line, hLine, p, hPair, hKey, paths, hPaths, hq⟩ := hIncludes
  obtain rfl : f' = f := Option.some.inj (hFile'.symm.trans hFile)
  exact h line hLine p hPair hKey paths hPaths q hq

section
variable {load : Word → Loaded File → Option (LoadResult File)} (hLoad : LoadsClosed fs load)

include hLoad

theorem loadIncludeFile_grown (h : loadIncludeFile load path s = some (.ok () s')) :
    (∃ new, Grown fs s s' new) ∧ path ∈ s'.keyList := by
  rw [loadIncludeFile] at h
  split at h
  · rename_i hMem
    cases h
    exact ⟨⟨[], .refl ⟨rfl, rfl⟩⟩, List.contains_iff_mem.mp hMem⟩
  · obtain ⟨f, new, hFile, hGrown, hLines⟩ := hLoad path _ s' h
    have hPath : path ∈ s'.keyList := by
      rw [hGrown.keyList]
      simp
    refine ⟨⟨path :: new, ?_, ?_, ?_, ?_⟩, hPath⟩
    · rw [hGrown.keyList, List.append_assoc, List.singleton_append]
    · rw [hGrown.opened, List.append_assoc, List.filterMap_cons_some hFile, List.singleton_append]
    · rintro q (_ | ⟨_, hq⟩)
      · rw [hFile]
        rfl
      · exact hGrown.readable q hq
    · rintro q (_ | ⟨_, hq⟩) included hIncludes
      · exact includes_known hFile hLines hIncludes
      · exact hGrown.closed q hq included hIncludes

theorem loadEach_grown (h : loadEach load paths s = some (.ok () s')) :
    (∃ new, Grown fs s s' new) ∧ ∀ q ∈ paths, q ∈ s'.keyList := by
  induction paths generalizing s with
  | nil =>
    cases h
    exact ⟨⟨[], .refl ⟨rfl, rfl⟩⟩, nofun⟩
  | cons path paths ih =>
    rw [loadEach] at h
    split at h
    · rename_i t hFirst
      obtain ⟨⟨new, hNew⟩, hPath⟩ := loadIncludeFile_grown hLoad hFirst
      obtain ⟨⟨newer, hNewer⟩, hPaths⟩ := ih h
      refine ⟨⟨new ++ newer, hNew.trans hNewer⟩, ?_⟩
      rintro q (_ | ⟨_, hq⟩)
      · exact hNewer.sub path hPath
      · exact hPaths q hq
    · rename_i hOk
      rw [h] at hOk
      exact absurd rfl (hOk () s')

theorem processLine_grown (h : fs.processLine load path line s = some (.ok () s')) :
    (∃ new, Grown fs s s' new) ∧ LineIn fs path line s'.keyList := by
  rw [processLine] at h
  split at h
  · cases h
  · rename_i hPair
    cases h
    refine ⟨⟨[], .refl ⟨rfl, rfl⟩⟩, fun p hp => ?_⟩
    rw [hPair] at hp
    cases hp
  · rename_i p hPair
    split at h
    · rename_i hKey
      rw [loadIncludeFiles] at h
      split at h
      · cases h
      · rename_i paths hPaths
        obtain ⟨⟨new, hNew⟩, hAll⟩ := loadEach_grown hLoad h
        refine ⟨⟨new, hNew.keyList, hNew.opened, hNew.readable, hNew.closed⟩, fun p' hp' _ paths' hPaths' => ?_⟩
        rw [hPair] at hp'
        cases hp'
        rw [hPaths] at hPaths'
        cases hPaths'
        exact hAll
    · rename_i hKey
      cases h
      refine ⟨⟨[], .refl ⟨rfl, rfl⟩⟩, fun p' hp' hKey' => ?_⟩
      rw [hPair] at hp'
      cases hp'
      exact absurd hKey' hKey

end

theorem LineIn.sub {known known' : List Word} (h : LineIn fs path line known) (hSub : ∀ q ∈ known, q ∈ known') :
    LineIn fs path line known' :=
  fun p hPair hKey paths hPaths q hq => hSub q (h p hPair hKey paths hPaths q hq)

theorem initializeKeys_closed {run : Word → IStream → Loaded File → Option (LoadResult File)}
    (hRun : ∀ path content s s', run path (.of content) s = some (.ok () s') →
      (∃ new, Grown fs s s' new) ∧ ∀ line ∈ lines content, LineIn fs path line s'.keyList) :
    LoadsClosed fs (fs.initializeKeys run) := by
  intro path s s' h
  rw [initializeKeys] at h
  split at h
  · cases h
  · rename_i f hFile
    split at h
    · cases h
    · obtain ⟨⟨new, hNew⟩, hLines⟩ := hRun _ _ _ _ h
      exact ⟨f, new, hFile, hNew, hLines⟩

/-- At the end of a stream there is nothing more. -/
theorem loadKeys_end (h : stream.eof = true) (hRun : fs.loadKeys n path stream s = some (.ok () s')) : s' = s := by
  cases n with
  | zero => cases hRun
  | succ n =>
    rw [loadKeys, if_pos h] at hRun
    cases hRun
    rfl

/-- By induction on the rounds: those of an include are fewer. -/
theorem loadKeys_closed (n : Nat) {content : Word} (h : fs.loadKeys n path (.of content) s = some (.ok () s')) :
    (∃ new, Grown fs s s' new) ∧ ∀ line ∈ lines content, LineIn fs path line s'.keyList := by
  induction n generalizing path content s s' with
  | zero => cases h
  | succ n ih =>
    have hLoad : LoadsClosed fs (fs.initializeKeys (fs.loadKeys n)) := initializeKeys_closed fun _ _ _ _ hRun => ih hRun
    by_cases hBreak : '\n' ∈ content
    · obtain ⟨line, rest, rfl, hLine⟩ := List.eq_append_cons_of_mem hBreak
      by_cases hShort : line.length < 255
      · rw [loadKeys, if_neg (by simp [IStream.of]), getline_line hLine hShort] at h
        dsimp only at h
        split at h
        · rename_i t hFirst
          obtain ⟨⟨new, hNew⟩, hIn⟩ := processLine_grown hLoad hFirst
          obtain ⟨⟨newer, hNewer⟩, hLines⟩ := ih h
          refine ⟨⟨new ++ newer, hNew.trans hNewer⟩, ?_⟩
          rw [lines_line hLine]
          rintro l (_ | ⟨_, hl⟩)
          · exact hIn.sub hNewer.sub
          · exact hLines l hl
        · rename_i hOk
          rw [h] at hOk
          exact absurd rfl (hOk () s')
      · rw [loadKeys_long hLine (Nat.not_lt.mp hShort)] at h
        cases h
    · rw [lines_last hBreak]
      by_cases hShort : content.length < 255
      · rw [loadKeys, if_neg (by simp [IStream.of]), getline_last hBreak hShort] at h
        by_cases hEmpty : content = []
        · subst hEmpty
          rw [if_pos rfl] at h
          obtain rfl := loadKeys_end rfl h
          refine ⟨⟨[], .refl ⟨rfl, rfl⟩⟩, ?_⟩
          rintro l (_ | ⟨_, ⟨⟩⟩) p hPair
          cases hPair
        · rw [if_neg hEmpty] at h
          dsimp only at h
          split at h
          · rename_i t hFirst
            obtain rfl := loadKeys_end rfl h
            obtain ⟨hGrown, hIn⟩ := processLine_grown hLoad hFirst
            refine ⟨hGrown, ?_⟩
            rintro l (_ | ⟨_, ⟨⟩⟩)
            exact hIn
          · rename_i hOk
            rw [h] at hOk
            exact absurd rfl (hOk () s')
      · rw [← List.append_nil content, loadKeys_long hBreak (Nat.not_lt.mp hShort)] at h
        cases h

theorem reached_recorded {known : List Word} {f : File} (hFile : fs.file root = some f)
    (hLines : ∀ line ∈ lines (fs.content f), LineIn fs root line known) (hClosed : ClosedIn fs known known)
    (h : fs.LeadsTo root path) : path ∈ known := by
  induction h with
  | single hIncludes => exact includes_known hFile hLines hIncludes
  | tail _ hIncludes ih => exact hClosed _ ih _ hIncludes

/-- A list that gives no file twice gives it for one path. -/
theorem path_unique {known : List Word} (h : (known.filterMap fs.file).Nodup) {path path' : Word} {f : File}
    (hPath : path ∈ known)
    (hPath' : path' ∈ known) (hFile : fs.file path = some f) (hFile' : fs.file path' = some f) : path = path' := by
  induction known with
  | nil => cases hPath
  | cons q known ih =>
    rcases List.mem_cons.mp hPath with rfl | hOld <;> rcases List.mem_cons.mp hPath' with rfl | hOld'
    · rfl
    · rw [List.filterMap_cons_some hFile, List.nodup_cons] at h
      exact absurd (List.mem_filterMap.mpr ⟨path', hOld', hFile'⟩) h.1
    · rw [List.filterMap_cons_some hFile', List.nodup_cons] at h
      exact absurd (List.mem_filterMap.mpr ⟨path, hOld, hFile⟩) h.1
    · refine ih ?_ hOld hOld'
      cases hHead : fs.file q with
      | none => rwa [List.filterMap_cons_none hHead] at h
      | some g =>
        rw [List.filterMap_cons_some hHead, List.nodup_cons] at h
        exact h.2

theorem onePath_of_load (h : fs.load n root = some (.ok () s)) (hNodup : s.opened.Nodup) : fs.OnePath root := by
  have hClosed : LoadsClosed fs (fs.initializeKeys (fs.loadKeys n)) :=
      initializeKeys_closed fun _ _ _ _ => loadKeys_closed n
  obtain ⟨f, new, hFile, hGrown, hLines⟩ := hClosed root _ s h
  have hKeyList : s.keyList = new := hGrown.keyList
  have hOpened : s.opened = f :: new.filterMap fs.file := hGrown.opened
  rw [hKeyList] at hLines
  have hKnown : ClosedIn fs new new := hKeyList ▸ hGrown.closed
  rw [hOpened, List.nodup_cons] at hNodup
  constructor
  · rintro path g hReached hPath hRoot
    obtain rfl : f = g := Option.some.inj (hFile.symm.trans hRoot)
    exact hNodup.1 (List.mem_filterMap.mpr ⟨path, reached_recorded hFile hLines hKnown hReached, hPath⟩)
  · intro path path' g hReached hReached' hPath hPath'
    exact path_unique hNodup.2 (reached_recorded hFile hLines hKnown hReached)
      (reached_recorded hFile hLines hKnown hReached') hPath hPath'

end

/-- A directory with two files. -/
def twoFiles : FileSystem Bool where
  file path := if path = "root.conf".toList then some false else if path = ".//sub.conf".toList then some true else none
  content f := if f then "A += 2".toList else "A = 1\nBES.Include = sub.conf".toList
  strerror _ := "No such file or directory".toList
  getcwd := "/etc".toList
  readdir dir := if dir = "./".toList then some [("root.conf".toList, false), ("sub.conf".toList, false)] else none
  regMatch expr name := .ok (if expr = name then name.length else -1)

/-- A file that includes itself. -/
def ownInclude : FileSystem Unit where
  file path := if path = "root.conf".toList ∨ path = ".//root.conf".toList then some () else none
  content _ := "A += 1\nBES.Include = root.conf".toList
  strerror _ := "No such file or directory".toList
  getcwd := "/etc".toList
  readdir dir := if dir = "./".toList then some [("root.conf".toList, false)] else none
  regMatch expr name := .ok (if expr = name then name.length else -1)

end Libdap.Bes
