import Libdap.Core.Bytes
import Libdap.Core.Triple
import Libdap.Constraint.Word

/-! # The cache of function results

An entry is a file under a name that is made of the dataset and the constraint. It is made empty, before
the functions are evaluated, and any file with something in it passes for valid.
-/

namespace Libdap.Bes
open Core Constraint
set_option autoImplicit false

def excludedFromFilenames : Word := "<>=,/()\"'".toList

/-- `build_cache_file_name`, in which one character after the other gives way to `#`. -/
def buildCacheFileName (dataset ce : Word) : Word :=
  (dataset ++ '#' :: ce).map fun c => if excludedFromFilenames.contains c then '#' else c

structure CacheFile where
  content : Bytes
  /-- `st_mtime` -/
  time : Int
  deriving DecidableEq, Repr

abbrev CacheDir := Word → Option CacheFile

/-- What the cache works with: the functions, the DDX with data as a file has it, the datasets' times and the
cache's directory. -/
structure ResponseServer (DDS : Type) where
  evaluate : Word → Word → DDS
  encode : DDS → Bytes
  decode : Bytes → Except Fault DDS
  datasetTime : Word → Option Int
  cacheDir : Word
  cachePrefix : Word

/-- How the making of an entry ends. -/
inductive Making
  | evaluationThrows (f : Fault)
  | openFails
  /-- With so many bytes in the file. -/
  | writingThrows (written : Nat) (f : Fault)
  /-- After the file is closed: at a lock or at the cache's size. -/
  | endThrows (f : Fault)
  /-- With some other files purged. -/
  | returns (purged : Word → Bool)

inductive CacheRequest
  | readDataset (filename constraint : Word)
  /-- Without a making where no file can be made. -/
  | cacheDataset (filename constraint : Word) (now : Int) (making : Option Making)

namespace ResponseServer

variable {DDS : Type} (s : ResponseServer DDS)

/-- `get_cache_file_name`, without mangling. -/
def cacheFileName (filename constraint : Word) : Word :=
  s.cacheDir ++ '/' :: (s.cachePrefix ++ '#' :: buildCacheFileName filename constraint)

def isValid (cacheFileName dataset : Word) (dir : CacheDir) : Bool :=
  match dir cacheFileName with
  | none => false
  | some file =>
    !file.content.isEmpty && match s.datasetTime dataset with
      | none => true
      | some time => !(time > file.time)

def writeFile (name : Word) (file : CacheFile) : Call CacheDir Unit :=
  modify fun dir n => if n = name then some file else dir n

def purgeFile (name : Word) : Call CacheDir Unit := modify fun dir n => if n = name then none else dir n

/-- `update_and_purge`, which leaves the new file. -/
def updateAndPurge (purged : Word → Bool) (newFile : Word) : Call CacheDir Unit :=
  modify fun dir n => if n ≠ newFile ∧ purged n then none else dir n

def getCachedDataDdx (name : Word) : Call CacheDir (Option DDS) := do
  match (← get) name with
  | none => throw .undefined
  | some file =>
    match s.decode file.content with
    | .error f => throw f
    | .ok fdds => pure (some fdds)

/-- The result, written to the new file. -/
def makeEntry (name filename constraint : Word) (now : Int) : Making → Call CacheDir (Option DDS)
  | .evaluationThrows f => throw f
  | .openFails => throw (.InternalErr ("Could not open '" ++ String.ofList name ++ "' to write cached response."))
  | .writingThrows written f => do
    writeFile name ⟨(s.encode (s.evaluate filename constraint)).take written, now⟩
    throw f
  | .endThrows f => do
    writeFile name ⟨s.encode (s.evaluate filename constraint), now⟩
    throw f
  | .returns purged => do
    writeFile name ⟨s.encode (s.evaluate filename constraint), now⟩
    updateAndPurge purged name
    pure (some (s.evaluate filename constraint))

/-- `BESDapResponseCache::cache_dataset`. A file that is there can be locked: the process does not shut itself
out. -/
def cacheDataset (filename constraint : Word) (now : Int) (making : Option Making) : Call CacheDir (Option DDS) := do
  if !s.isValid (s.cacheFileName filename constraint) filename (← get) then
    purgeFile (s.cacheFileName filename constraint)
  if ((← get) (s.cacheFileName filename constraint)).isSome then
    s.getCachedDataDdx (s.cacheFileName filename constraint)
  else match making with
    | none => throw (.InternalErr "Cache error during function invocation.")
    | some making => do
      writeFile (s.cacheFileName filename constraint) ⟨[], now⟩
      s.makeEntry (s.cacheFileName filename constraint) filename constraint now making

/-- `BESDapResponseCache::read_dataset`; the pointer that it returns may never have been set. -/
def readDataset (filename constraint : Word) : Call CacheDir (Option DDS) := do
  if ((← get) (s.cacheFileName filename constraint)).isSome && s.isValid (s.cacheFileName filename constraint) filename
    (← get) then
    s.getCachedDataDdx (s.cacheFileName filename constraint)
  else pure none

def request : CacheRequest → Call CacheDir (Option DDS)
  | .readDataset filename constraint => s.readDataset filename constraint
  | .cacheDataset filename constraint now making => s.cacheDataset filename constraint now making

end ResponseServer

def CacheRequest.key : CacheRequest → Word × Word
  | .readDataset filename constraint => (filename, constraint)
  | .cacheDataset filename constraint _ _ => (filename, constraint)

/-! ## What is served -/

section
variable {DDS : Type} {s : ResponseServer DDS}

/-- What has been written of an entry is not read back as anything but the result. -/
def Readable (s : ResponseServer DDS) (key : Word × Word) (content : Bytes) : Prop :=
  content = [] ∨ ∀ fdds, s.decode content = .ok fdds → fdds = s.evaluate key.1 key.2

/-- A request for one of some keys. Writing that throws leaves nothing that would be read back as something
else, and only an entry that is valid is read without being made. -/
structure AllowedRequest (s : ResponseServer DDS) (keys : Word × Word → Prop) (dir : CacheDir) (r : CacheRequest) :
    Prop where
  key : keys r.key
  whole : ∀ filename constraint now written f, r = .cacheDataset filename constraint now
    (some (.writingThrows written f)) →
    Readable s (filename, constraint) ((s.encode (s.evaluate filename constraint)).take written)
  there : ∀ filename constraint, r = .readDataset filename constraint →
    s.isValid (s.cacheFileName filename constraint) filename dir = true

/-- No two keys have the same file. -/
def DistinctNames (s : ResponseServer DDS) (keys : Word × Word → Prop) : Prop :=
  ∀ p q, keys p → keys q → s.cacheFileName p.1 p.2 = s.cacheFileName q.1 q.2 → p = q

def Right (s : ResponseServer DDS) (keys : Word × Word → Prop) (dir : CacheDir) : Prop :=
  ∀ key, keys key → ∀ file, dir (s.cacheFileName key.1 key.2) = some file → Readable s key file.content

theorem writeFile_right {keys : Word × Word → Prop} (hNames : DistinctNames s keys) {key : Word × Word}
    (hKey : keys key)
    {file : CacheFile} (hFile : Readable s key file.content) :
    Triple (Right s keys) (ResponseServer.writeFile (s.cacheFileName key.1 key.2) file) (fun _ => Right s keys)
      (Right s keys) := by
  apply Triple.modified
  intro dir hDir key' hKey' file' hFile'
  dsimp only at hFile'
  split at hFile'
  · rename_i hSame
    cases hFile'
    rw [hNames key' key hKey' hKey hSame]
    exact hFile
  · exact hDir key' hKey' file' hFile'

theorem purgeFile_right {keys : Word × Word → Prop} (name : Word) :
    Triple (Right s keys) (ResponseServer.purgeFile name) (fun _ => Right s keys) (Right s keys) := by
  apply Triple.modified
  intro dir hDir key hKey file hFile
  dsimp only at hFile
  split at hFile
  · cases hFile
  · exact hDir key hKey file hFile

theorem updateAndPurge_right {keys : Word × Word → Prop} (purged : Word → Bool) (name : Word) :
    Triple (Right s keys) (ResponseServer.updateAndPurge purged name) (fun _ => Right s keys) (Right s keys) := by
  apply Triple.modified
  intro dir hDir key hKey file hFile
  dsimp only at hFile
  split at hFile
  · cases hFile
  · exact hDir key hKey file hFile

/-- The result of the key. -/
def Served (s : ResponseServer DDS) (keys : Word × Word → Prop) (key : Word × Word) (result : Option DDS)
    (dir : CacheDir) :
    Prop :=
  result = some (s.evaluate key.1 key.2) ∧ Right s keys dir

theorem makeEntry_served (hCodec : ∀ d, s.decode (s.encode d) = .ok d) {keys : Word × Word → Prop}
    (hNames : DistinctNames s keys) {key : Word × Word} (hKey : keys key) (now : Int) {making : Making}
    (hWhole : ∀ written f, making = .writingThrows written f →
      Readable s key ((s.encode (s.evaluate key.1 key.2)).take written)) :
    Triple (Right s keys) (s.makeEntry (s.cacheFileName key.1 key.2) key.1 key.2 now making) (Served s keys key)
      (Right s keys) := by
  have hAll : Readable s key (s.encode (s.evaluate key.1 key.2)) := by
    right
    intro fdds hDecode
    rw [hCodec] at hDecode
    cases hDecode
    rfl
  cases making with
  | evaluationThrows f => exact Triple.throw fun _ _ hDir => hDir
  | openFails => exact Triple.throw fun _ _ hDir => hDir
  | writingThrows written f =>
    exact (writeFile_right hNames hKey (hWhole written f rfl)).bind fun _ => Triple.throw fun _ _ hDir => hDir
  | endThrows f => exact (writeFile_right hNames hKey hAll).bind fun _ => Triple.throw fun _ _ hDir => hDir
  | returns purged =>
    refine (writeFile_right hNames hKey hAll).bind fun _ => ?_
    exact (updateAndPurge_right purged _).bind fun _ => Triple.pure fun _ hDir => ⟨rfl, hDir⟩

/-- A valid file has the result in it. -/
theorem getCachedDataDdx_served {keys : Word × Word → Prop} {key : Word × Word}
    (hKey : keys key) :
    Triple (fun dir => Right s keys dir ∧ s.isValid (s.cacheFileName key.1 key.2) key.1 dir = true)
      (s.getCachedDataDdx (s.cacheFileName key.1 key.2)) (Served s keys key) (Right s keys) := by
  apply Triple.get_bind
  intro dir
  cases hFile : dir (s.cacheFileName key.1 key.2) with
  | none => exact Triple.undefined
  | some file =>
    cases hDecode : s.decode file.content with
    | error f =>
      simp only [hDecode]
      apply Triple.throw
      rintro - dir' ⟨⟨hRight, -⟩, -⟩
      exact hRight
    | ok fdds =>
      simp only [hDecode]
      apply Triple.pure
      rintro dir' ⟨⟨hRight, hValid⟩, rfl⟩
      refine ⟨?_, hRight⟩
      simp only [ResponseServer.isValid, hFile, Bool.and_eq_true, Bool.not_eq_true',
        List.isEmpty_eq_false_iff] at hValid
      rcases hRight key hKey file hFile with hEmpty | hAll
      · exact absurd hEmpty hValid.1
      · rw [hAll fdds hDecode]

theorem readDataset_served {keys : Word × Word → Prop} {key : Word × Word}
    (hKey : keys key) :
    Triple (fun dir => Right s keys dir ∧ s.isValid (s.cacheFileName key.1 key.2) key.1 dir = true)
      (s.readDataset key.1 key.2) (Served s keys key) (Right s keys) := by
  apply Triple.get_bind
  intro dir
  apply Triple.get_bind
  intro dir'
  apply Triple.ite
  · intro _
    apply (getCachedDataDdx_served hKey).weaken
    rintro dir'' ⟨⟨hDir, -⟩, -⟩
    exact hDir
  · intro hNot
    apply Triple.of_absurd
    rintro dir'' ⟨⟨⟨-, hValid⟩, hSame⟩, hSame'⟩
    subst hSame hSame'
    apply hNot
    simp only [hValid, Bool.and_true]
    simp only [ResponseServer.isValid] at hValid
    split at hValid
    · cases hValid
    · rename_i file hFile
      rw [hFile]
      rfl

theorem cacheDataset_served (hCodec : ∀ d, s.decode (s.encode d) = .ok d) {keys : Word × Word → Prop}
    (hNames : DistinctNames s keys) {key : Word × Word} (hKey : keys key) (now : Int) {making : Option Making}
    (hWhole : ∀ written f, making = some (.writingThrows written f) →
      Readable s key ((s.encode (s.evaluate key.1 key.2)).take written)) :
    Triple (Right s keys) (s.cacheDataset key.1 key.2 now making) (Served s keys key) (Right s keys) := by
  -- What is not valid has been purged, so that a file that is there is a valid one.
  have hRest : Triple
      (fun dir => Right s keys dir ∧ ((dir (s.cacheFileName key.1 key.2)).isSome = true →
        s.isValid (s.cacheFileName key.1 key.2) key.1 dir = true))
      (do
        if ((← get) (s.cacheFileName key.1 key.2)).isSome then
          s.getCachedDataDdx (s.cacheFileName key.1 key.2)
        else match making with
          | none => throw (.InternalErr "Cache error during function invocation.")
          | some making => do
            ResponseServer.writeFile (s.cacheFileName key.1 key.2) ⟨[], now⟩
            s.makeEntry (s.cacheFileName key.1 key.2) key.1 key.2 now making)
      (Served s keys key) (Right s keys) := by
    apply Triple.get_bind
    intro dir
    apply Triple.ite
    · intro hThere
      apply (getCachedDataDdx_served hKey).weaken
      rintro dir' ⟨⟨hDir, hValid⟩, rfl⟩
      exact ⟨hDir, hValid hThere⟩
    · intro _
      refine Triple.weaken ?_ (fun dir' hDir => hDir.1.1)
      cases making with
      | none => exact Triple.throw fun _ _ hDir => hDir
      | some making =>
        apply (writeFile_right hNames hKey (Or.inl rfl)).bind
        intro _
        apply makeEntry_served hCodec hNames hKey now
        rintro written f rfl
        exact hWhole written f rfl
  apply Triple.get_bind
  intro dir
  apply Triple.ite
  · intro _
    apply Triple.bind _ (fun _ => hRest)
    apply Triple.modified
    rintro dir' ⟨hDir, -⟩
    constructor
    · intro key' hKey' file hFile
      dsimp only at hFile
      split at hFile
      · cases hFile
      · exact hDir key' hKey' file hFile
    · simp
  · intro hValid
    apply hRest.weaken
    rintro dir' ⟨hDir, rfl⟩
    exact ⟨hDir, fun _ => by simpa using hValid⟩

theorem request_served (hCodec : ∀ d, s.decode (s.encode d) = .ok d) {keys : Word × Word → Prop}
    (hNames : DistinctNames s keys) (r : CacheRequest) :
    Triple (fun dir => Right s keys dir ∧ AllowedRequest s keys dir r) (s.request r) (Served s keys r.key)
      (Right s keys) := by
  cases r with
  | readDataset filename constraint =>
    have hRead : keys (filename, constraint) → _ := fun hKey => readDataset_served (s := s) hKey
    constructor
    · intro dir result dir' hDir hRun
      exact (hRead hDir.2.key).ok dir result dir' ⟨hDir.1, hDir.2.there _ _ rfl⟩ hRun
    · intro dir f dir' hDir hRun hNot
      exact (hRead hDir.2.key).error dir f dir' ⟨hDir.1, hDir.2.there _ _ rfl⟩ hRun hNot
  | cacheDataset filename constraint now making =>
    have hMade : ∀ dir, AllowedRequest s keys dir (.cacheDataset filename constraint now making) →
        Triple (Right s keys) (s.cacheDataset filename constraint now making) (Served s keys (filename, constraint))
          (Right s keys) := by
      intro dir hAllowed
      apply cacheDataset_served hCodec hNames hAllowed.key now
      rintro written f rfl
      exact hAllowed.whole _ _ now written f rfl
    constructor
    · intro dir result dir' hDir hRun
      exact (hMade dir hDir.2).ok dir result dir' hDir.1 hRun
    · intro dir f dir' hDir hRun hNot
      exact (hMade dir hDir.2).error dir f dir' hDir.1 hRun hNot

/-- What the requests lead to from an empty directory. -/
def Reached (s : ResponseServer DDS) (keys : Word × Word → Prop) : CacheDir → Prop :=
  Run (fun r => do let _ ← s.request r) (fun dir => dir = fun _ => none) (AllowedRequest s keys)

theorem reached_right (hCodec : ∀ d, s.decode (s.encode d) = .ok d) {keys : Word × Word → Prop}
    (hNames : DistinctNames s keys) {dir : CacheDir} (h : Reached s keys dir) : Right s keys dir := by
  apply Run.invariant (I := Right s keys) _ _ h
  · rintro _ rfl key _ file hFile
    cases hFile
  · intro r
    apply (request_served hCodec hNames r).bind
    intro result
    exact Triple.pure fun _ hServed => hServed.2

/-- Each call that returns yields the result of its own dataset and constraint. -/
theorem result_served (hCodec : ∀ d, s.decode (s.encode d) = .ok d) {keys : Word × Word → Prop}
    (hNames : DistinctNames s keys) {dir dir' : CacheDir} (h : Reached s keys dir) {r : CacheRequest}
    (hAllowed : AllowedRequest s keys dir r) {result : Option DDS} (hReturns : s.request r dir = .ok result dir') :
    result = some (s.evaluate r.key.1 r.key.2) :=
  ((request_served hCodec hNames r).ok dir result dir' ⟨reached_right hCodec hNames h, hAllowed⟩ hReturns).1

end

/-! ## A server -/

/-- A dataset's name and a constraint for a DDS, between angle brackets in the file. -/
def bracketed : ResponseServer Bytes where
  evaluate filename constraint := (filename ++ ' ' :: constraint).map fun c => UInt8.ofNat c.toNat
  encode fdds := 60 :: fdds ++ [62]
  decode content := match content with
    | 60 :: fdds => if fdds.getLast? = some 62 then .ok fdds.dropLast else .error (.Error "Part of a document.")
    | _ => .error (.Error "Not a document.")
  datasetTime _ := some 0
  cacheDir := "/tmp".toList
  cachePrefix := "rc".toList

theorem bracketed_decode (d : Bytes) : bracketed.decode (bracketed.encode d) = .ok d := by
  simp [bracketed]

def sumOf (x : String) : Word := ("sum(" ++ x ++ ")").toList

def sums : Word × Word → Prop := fun p => p ∈ [("a.nc".toList, sumOf "x"), ("a.nc".toList, sumOf "y")]

def cacheSum (x : String) (making : Making) : CacheRequest := .cacheDataset "a.nc".toList (sumOf x) 1 (some making)

theorem sums_distinct : DistinctNames bracketed sums := by
  have hAll : ([("a.nc".toList, sumOf "x"), ("a.nc".toList, sumOf "y")] : List (Word × Word)).Pairwise fun p q =>
      bracketed.cacheFileName p.1 p.2 ≠ bracketed.cacheFileName q.1 q.2 := by decide
  intro p q hp hq hSame
  simp only [sums, List.mem_cons, List.not_mem_nil, or_false] at hp hq
  simp only [List.pairwise_cons, List.mem_cons, List.not_mem_nil, or_false, forall_eq] at hAll
  rcases hp with rfl | rfl <;> rcases hq with rfl | rfl
  · rfl
  · exact absurd hSame hAll.1
  · exact absurd hSame.symm hAll.1
  · rfl

theorem sum_served : ∃ dir result dir', Reached bracketed sums dir ∧
    bracketed.request (.readDataset "a.nc".toList (sumOf "y")) dir = .ok result dir' ∧
      result = some (bracketed.evaluate "a.nc".toList (sumOf "y")) := by
  have hEmpty : Reached bracketed sums fun _ => none := Run.start rfl
  have hPart := Run.step (cacheSum "x" (.writingThrows 4 (.Error "No space left on device."))) hEmpty
    ⟨by simp [cacheSum, CacheRequest.key, sums], ?_, by rintro _ _ ⟨⟩⟩ rfl
  · have hMade := Run.step (cacheSum "y" (.returns fun _ => false)) hPart
      ⟨by simp [cacheSum, CacheRequest.key, sums], by rintro _ _ _ _ _ ⟨⟩, by rintro _ _ ⟨⟩⟩ rfl
    refine ⟨_, _, _, hMade, rfl, result_served (r := .readDataset "a.nc".toList (sumOf "y")) bracketed_decode
      sums_distinct
      hMade ⟨by simp [CacheRequest.key, sums], by rintro _ _ _ _ _ ⟨⟩, ?_⟩ rfl⟩
    rintro _ _ ⟨⟩
    rfl
  · rintro _ _ _ _ _ ⟨⟩
    right
    rintro _ ⟨⟩

/-- From an empty directory: the pointer that was never set, and the result of a constraint with a comma for the
one with a slash. -/
theorem wrong_results :
    bracketed.request (.readDataset "a.nc".toList (sumOf "x")) (fun _ => none) = .ok none (fun _ => none) ∧
      ∃ dir dir', (do let _ ← bracketed.request (cacheSum "x,y" (.returns fun _ => false))).after (fun _ => none) =
        some dir ∧
        bracketed.request (cacheSum "x/y" (.returns fun _ => false)) dir =
          .ok (some (bracketed.evaluate "a.nc".toList (sumOf "x,y"))) dir' ∧
        bracketed.evaluate "a.nc".toList (sumOf "x,y") ≠ bracketed.evaluate "a.nc".toList (sumOf "x/y") :=
  ⟨rfl, _, _, rfl, rfl, by decide⟩

end Libdap.Bes
