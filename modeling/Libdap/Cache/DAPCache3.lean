import Mathlib.Data.List.Sort
import Libdap.Cache.System

/-! # The file cache

The methods of `DAPCache3`, which are those of `BESCache3` too (without `purge_file`, and with its own class of
error). What is logged is left out.
-/

namespace Libdap.Cache
open Core Constraint
set_option autoImplicit false

/-- The values of an `unsigned long long`. -/
def ulonglong : Nat := 2 ^ 64

/-- The difference of two of them. -/
def minus (a b : Nat) : Nat := (a + (ulonglong - b % ulonglong)) % ulonglong

/-- `d_max_cache_size_in_bytes` and `d_target_size` -/
structure CacheLimits where
  maxSize : Nat
  targetSize : Nat

structure CacheEntry where
  name : Word
  size : Nat
  time : Int
  deriving DecidableEq, Repr

/-- What `update_and_purge` leaves: the files that it found, the size that it recorded, and which names it
removed and which it took for in use, as it logs them. -/
structure Purge where
  contents : List CacheEntry
  size : Nat
  removed : List Word
  inUse : List Word
  deriving DecidableEq, Repr

open Program (sys)

abbrev Proc (α : Type) := Program Sys α

def failUnless (ok : Bool) (msg : String) : Proc Unit := if ok then pure () else throw (.InternalErr msg)

def lockCacheWrite : Proc Unit := do
  failUnless (← sys (.setLockInfo .write)) "An error occurred trying to lock the cache-control file"

def lockCacheRead : Proc Unit := do
  failUnless (← sys (.setLockInfo .read)) "An error occurred trying to lock the cache-control file"

def unlockCache : Proc Unit := sys .unlockInfo

/-- `try` with the handler that all methods have. -/
def unlockingCache {α : Type} (x : Proc α) : Proc α :=
  tryCatch x fun f => do
    unlockCache
    throw f

/-- The lock on an open file, or the exception. -/
def lockFile (fd : Nat) (type : LockType) : Proc Unit := do
  if !(← sys (.setLockWait fd type)) then
    sys (.close fd)
    throw (.InternalErr "cache process triggered a locking error")

/-- `getSharedLock` and `getExclusiveLock` -/
def getLock (fileName : Word) (type : LockType) : Proc (Option Nat) := do
  match ← sys (.openFile fileName) with
  | none => pure none
  | some fd =>
    lockFile fd type
    pure (some fd)

def getExclusiveLockNB (fileName : Word) : Proc (Option Nat) := do
  match ← sys (.openFile fileName) with
  | none => pure none
  | some fd =>
    if ← sys (.setLock fd .write) then pure (some fd)
    else
      sys (.close fd)
      pure none

def createLockedFile (fileName : Word) : Proc (Option Nat) := do
  match ← sys (.createFile fileName) with
  | none => pure none
  | some fd =>
    lockFile fd .write
    pure (some fd)

def getReadLock (target : Word) : Proc (Option Nat) := do
  lockCacheRead
  let status ← getLock target .read
  unlockCache
  pure status

def createAndLock (target : Word) : Proc (Option Nat) := do
  lockCacheWrite
  let status ← createLockedFile target
  unlockCache
  pure status

def exclusiveToSharedLock (fd : Nat) : Proc Unit := do
  failUnless (← sys (.setLockWait fd .read)) "Could not convert an exclusive to a shared lock"

/-- `unlock`, and with it `unlock_and_close`. -/
def unlockAndClose (fd : Nat) : Proc Unit := sys (.close fd)

def updateCacheInfo (target : Word) : Proc Nat :=
  unlockingCache do
    lockCacheWrite
    let currentSize ← sys .readInfo
    match ← sys (.stat target) with
    | none => throw (.InternalErr ("Could not read the size of the new file: " ++ String.ofList target))
    | some (size, _) =>
      sys (.writeInfo ((currentSize + size) % ulonglong))
      unlockCache
      pure ((currentSize + size) % ulonglong)

def getCacheSize : Proc Nat :=
  unlockingCache do
    lockCacheRead
    let currentSize ← sys .readInfo
    unlockCache
    pure currentSize

/-- The loop of `m_collect_cache_dir_info`. -/
def collectFiles : List Word → Nat → List CacheEntry → Proc (Nat × List CacheEntry)
  | [], currentSize, contents => pure (currentSize, contents)
  | file :: files, currentSize, contents => do
    match ← sys (.stat file) with
    | none => collectFiles files currentSize contents
    | some (size, time) => collectFiles files ((currentSize + size) % ulonglong) (contents ++ [⟨file, size, time⟩])

/-- `m_collect_cache_dir_info`, with the smaller (older) times first. -/
def collectCacheDirInfo : Proc (Nat × List CacheEntry) := do
  let files ← sys .readdir
  let (currentSize, contents) ← collectFiles files 0 []
  pure (currentSize, contents.insertionSort fun e₁ e₂ => e₁.time ≤ e₂.time)

def CacheLimits.cacheTooBig (limits : CacheLimits) (currentSize : Nat) : Bool := currentSize > limits.maxSize

/-- The loop of `update_and_purge`. -/
def purgeFiles (limits : CacheLimits) (newFile : Word) : List CacheEntry → Purge → Proc Purge
  | [], done => pure done
  | entry :: entries, done => do
    if done.size > limits.targetSize then
      if entry.name = newFile then purgeFiles limits newFile entries done
      else
        match ← getExclusiveLockNB entry.name with
        | none => purgeFiles limits newFile entries { done with inUse := entry.name :: done.inUse }
        | some fd =>
          failUnless (← sys (.unlink entry.name))
            ("Unable to purge the file " ++ String.ofList entry.name ++ " from the cache")
          sys (.close fd)
          purgeFiles limits newFile entries
            { done with size := minus done.size entry.size, removed := entry.name :: done.removed }
    else pure done

/-- The part of `update_and_purge` for a cache that is too big. -/
def purgeTooBig (limits : CacheLimits) (newFile : Word) (computedSize : Nat) (contents : List CacheEntry) :
    Proc Purge :=
  if limits.cacheTooBig computedSize then purgeFiles limits newFile contents ⟨contents, computedSize, [], []⟩
  else pure ⟨contents, computedSize, [], []⟩

def updateAndPurge (limits : CacheLimits) (newFile : Word) : Proc Purge :=
  unlockingCache do
    lockCacheWrite
    let (computedSize, contents) ← collectCacheDirInfo
    let done ← purgeTooBig limits newFile computedSize contents
    sys (.writeInfo done.size)
    unlockCache
    pure done

def purgeFile (file : Word) : Proc Unit :=
  unlockingCache do
    lockCacheWrite
    match ← getLock file .write with
    | none => unlockCache
    | some fd =>
      let size := match ← sys (.stat file) with
        | none => 0
        | some (size, _) => size
      failUnless (← sys (.unlink file)) ("Unable to purge the file " ++ String.ofList file ++ " from the cache")
      sys (.close fd)
      let cacheSize ← getCacheSize
      sys (.writeInfo (minus cacheSize size))
      unlockCache

theorem minus_add (a b : Nat) : minus (a + b) b = a % ulonglong := by
  have hLt : b % ulonglong < ulonglong := Nat.mod_lt b (by decide)
  have hBack : b + (ulonglong - b % ulonglong) = ulonglong * (b / ulonglong + 1) := by
    have hDiv := Nat.div_add_mod b ulonglong
    rw [Nat.mul_add, Nat.mul_one]
    omega
  rw [minus, Nat.add_assoc, hBack, Nat.add_mul_mod_self_left]

theorem minus_mod (a b : Nat) : minus ((a + b) % ulonglong) b = a % ulonglong := by
  rw [← minus_add a b, minus, minus, Nat.mod_add_mod]

/-- The size of what is left of some files. -/
def keptSize (contents : List CacheEntry) (removed : List Word) : Nat :=
  ((contents.filter fun e => e.name ∉ removed).map CacheEntry.size).sum

theorem keptSize_nil (contents : List CacheEntry) : keptSize contents [] = (contents.map CacheEntry.size).sum := by
  simp [keptSize]

theorem keptSize_other {contents : List CacheEntry} {n : Word} {removed : List Word}
    (h : n ∉ contents.map CacheEntry.name) :
    keptSize contents (n :: removed) = keptSize contents removed := by
  rw [keptSize, keptSize]
  congr 2
  apply List.filter_congr
  intro e he
  have hNe : e.name ≠ n := fun hSame => h (hSame ▸ List.mem_map_of_mem he)
  simp [hNe]

theorem keptSize_removed {contents : List CacheEntry} {entry : CacheEntry} {removed : List Word}
    (hNodup : (contents.map CacheEntry.name).Nodup) (hMem : entry ∈ contents) (hNot : entry.name ∉ removed) :
    keptSize contents removed = keptSize contents (entry.name :: removed) + entry.size := by
  induction contents with
  | nil => cases hMem
  | cons e es ih =>
    rw [List.map_cons, List.nodup_cons] at hNodup
    rcases List.mem_cons.mp hMem with rfl | hMem
    · have hRest : keptSize es (entry.name :: removed) = keptSize es removed := keptSize_other hNodup.1
      simp only [keptSize] at hRest ⊢
      rw [List.filter_cons_of_pos (by simpa using hNot), List.filter_cons_of_neg (by simp), hRest, List.map_cons,
        List.sum_cons, Nat.add_comm]
    · have hNe : e.name ≠ entry.name := fun hSame => hNodup.1 (hSame ▸ List.mem_map_of_mem hMem)
      have hRest := ih hNodup.2 hMem
      simp only [keptSize] at hRest ⊢
      by_cases hGone : e.name ∈ removed
      · rw [List.filter_cons_of_neg (by simpa using hGone), List.filter_cons_of_neg (by simp [hGone]), hRest]
      · rw [List.filter_cons_of_pos (by simpa using hGone), List.filter_cons_of_pos (by simp [hGone, hNe]),
          List.map_cons,
          List.map_cons, List.sum_cons, List.sum_cons, hRest, Nat.add_assoc]

/-- What a process does with the cache; a file is made by the three calls that belong together. -/
inductive CacheOp
  | create (target : Word) (data : List Bytes)
  | getReadLock (target : Word)
  | purgeFile (file : Word)
  | updateAndPurge (newFile : Word)
  | getCacheSize
  | unlockAndClose (fd : Nat)
  deriving DecidableEq

def writeAll (fd : Nat) : List Bytes → Proc Unit
  | [] => pure ()
  | data :: rest => do
    sys (.write fd data)
    writeAll fd rest

/-- `create_and_lock`, the writing, and `update_cache_info`. -/
def create (target : Word) (data : List Bytes) : Proc Unit := do
  match ← createAndLock target with
  | none => pure ()
  | some fd =>
    writeAll fd data
    exclusiveToSharedLock fd
    let _ ← updateCacheInfo target

def CacheOp.program (limits : CacheLimits) : CacheOp → Proc (Option Purge)
  | .create target data => do
    Cache.create target data
    pure none
  | .getReadLock target => do
    let _ ← Cache.getReadLock target
    pure none
  | .purgeFile file => do
    Cache.purgeFile file
    pure none
  | .updateAndPurge newFile => do
    let done ← Cache.updateAndPurge limits newFile
    pure (some done)
  | .getCacheSize => do
    let _ ← Cache.getCacheSize
    pure none
  | .unlockAndClose fd => do
    Cache.unlockAndClose fd
    pure none

/-- The processes on one directory. -/
def cacheMachine (Pid : Type) [DecidableEq Pid] (limits : CacheLimits) :
    Machine Pid (CacheDisk Pid) CacheOp Choice Sys (Option Purge) where
  serve p choice := CacheDisk.serve p choice
  program := CacheOp.program limits

end Libdap.Cache
