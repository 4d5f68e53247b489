import Libdap.Core.Triple
import Libdap.Http.CacheEntry

/-! # The table of entries

A slot is a vector of pointers to entries; an entry is known by its address, a pointer to a deleted one
is null until the sweep over the slot ends. A lock that is not to be had stops the program for good.
`remove` of a file is not looked at when it fails.
-/

namespace Libdap.Http
open Core Constraint
set_option autoImplicit false

abbrev Cell := Option (Nat × CacheEntry)

structure HTTPCacheTable where
  slots : Nat → List Cell
  /-- The address of the next entry. -/
  nextAddress : Nat
  blockSize : Nat
  currentSize : Nat
  newEntries : Int
  /-- `d_locked_entries` -/
  lockedEntries : List (Nat × Option Nat)

namespace CacheEntry

/-- Nothing when the call would wait. -/
def lockRead (e : CacheEntry) : Option CacheEntry :=
  if !e.responseLock then some { e with responseLock := true, readers := e.readers + 1 }
  else if e.writeLock then Option.none
  else some { e with readers := e.readers + 1 }

def unlockRead (e : CacheEntry) : CacheEntry :=
  { e with
    readers := e.readers - 1
    responseLock := if e.readers - 1 = 0 then false else e.responseLock }

def lockWrite (e : CacheEntry) : Option CacheEntry :=
  if e.responseLock ∨ e.writeLock then Option.none
  else some { e with responseLock := true, writeLock := true }

def unlockWrite (e : CacheEntry) : CacheEntry := { e with responseLock := false, writeLock := false }

end CacheEntry

namespace HTTPCacheTable

/-- The constructor, before it reads the index. -/
def new (blockSize : Nat) : HTTPCacheTable := ⟨fun _ => [], 0, blockSize, 0, 0, []⟩

/-- The entry at the address is changed, in whichever slot it is. -/
def setEntry (a : Nat) (e : CacheEntry) (t : HTTPCacheTable) : HTTPCacheTable :=
  { t with slots := fun s => (t.slots s).map (Option.map fun p => if p.1 = a then (a, e) else p) }

def setSlot (s : Nat) (cells : List Cell) (t : HTTPCacheTable) : HTTPCacheTable :=
  { t with slots := Function.update t.slots s cells }

/-- The first entry of the slot that has the URL. -/
def lookup (t : HTTPCacheTable) (slot : Nat) (url : Word) : Option (Nat × CacheEntry) :=
  (t.slots slot).findSome? fun c => c.filter fun p => p.2.url = url

def entryAt (t : HTTPCacheTable) (a : Nat) : Option CacheEntry :=
  (List.range CACHE_TABLE_SIZE).findSome? fun s =>
    (t.slots s).findSome? fun c => (c.filter fun p => p.1 = a).map Prod.snd

end HTTPCacheTable

open HTTPCacheTable

/-- A wait without end leaves no state. -/
def orWait {α : Type} : Option α → Call HTTPCacheTable α
  | none => throw .undefined
  | some a => pure a

def readEntry (a : Nat) : Call HTTPCacheTable CacheEntry := do
  let t ← get
  orWait (t.entryAt a)

def getLockedEntry (url : Word) : Call HTTPCacheTable (Option Nat) := do
  let t ← get
  match t.lookup (getHash url) url with
  | none => pure none
  | some (a, e) =>
    let locked ← orWait e.lockRead
    modify (setEntry a locked)
    pure (some a)

def getWriteLockedEntry (url : Word) : Call HTTPCacheTable (Option Nat) := do
  let t ← get
  match t.lookup (getHash url) url with
  | none => pure none
  | some (a, e) =>
    let locked ← orWait e.lockWrite
    modify (setEntry a locked)
    pure (some a)

def unlockReadResponse (a : Nat) : Call HTTPCacheTable Unit := do
  let e ← readEntry a
  modify (setEntry a e.unlockRead)

def unlockWriteResponse (a : Nat) : Call HTTPCacheTable Unit := do
  let e ← readEntry a
  modify (setEntry a e.unlockWrite)

/-- An `int` in an `unsigned long`. -/
def uint64 (n : Int) : Nat := (n % 18446744073709551616).toNat

def hashTooLarge : Fault := .InternalErr "Hash value too large!"

/-- The table with one more entry. -/
def HTTPCacheTable.push (e : CacheEntry) (t : HTTPCacheTable) : HTTPCacheTable :=
  { t with
    slots := Function.update t.slots e.hash.toNat (t.slots e.hash.toNat ++ [some (t.nextAddress, e)])
    nextAddress := t.nextAddress + 1
    currentSize := (t.currentSize + uint64 (entryDiskSpace e.size t.blockSize)) % 18446744073709551616
    newEntries := t.newEntries + 1 }

/-- `HTTPCacheTable::add_entry_to_cache_table` of a new entry. A block size of 0 divides by it. -/
def addEntryToCacheTable (e : CacheEntry) : Call HTTPCacheTable Unit := do
  let t ← get
  if e.hash > CACHE_TABLE_SIZE - 1 ∨ e.hash < 0 then throw hashTooLarge
  else if t.blockSize = 0 then throw .undefined
  else modify (push e)

def entryInUse : Fault := .InternalErr "Tried to delete a cache entry that is in use."

/-- The entry's space is taken off the size, which stops at 0. -/
def HTTPCacheTable.subtract (e : CacheEntry) (t : HTTPCacheTable) : HTTPCacheTable :=
  { t with
    currentSize :=
      if uint32 (entryDiskSpace e.size t.blockSize) > t.currentSize then 0
      else t.currentSize - uint32 (entryDiskSpace e.size t.blockSize) }

/-- `HTTPCacheTable::remove_cache_entry` -/
def removeCacheEntry (e : CacheEntry) : Call HTTPCacheTable Unit := do
  let t ← get
  if e.readers ≠ 0 then throw entryInUse
  else if t.blockSize = 0 then throw .undefined
  else modify (subtract e)

/-- `delete e; e = 0` -/
def HTTPCacheTable.clearCell (s i : Nat) (t : HTTPCacheTable) : HTTPCacheTable :=
  setSlot s ((t.slots s).set i none) t

/-- The functors over the entries: which ones they delete, and whether they lock them for it. -/
structure Functor where
  chosen : CacheEntry → Bool
  locks : Bool

def removeCell (f : Functor) (s i a : Nat) (e : CacheEntry) : Call HTTPCacheTable Unit :=
  if f.locks then do
    let locked ← orWait e.lockWrite
    modify (setEntry a locked)
    removeCacheEntry locked
    modify (clearCell s i)
  else do
    removeCacheEntry e
    modify (clearCell s i)

def applyFunctor (f : Functor) (s i : Nat) : Call HTTPCacheTable Unit := do
  let t ← get
  match (t.slots s)[i]?.join with
  | none => pure ()
  | some (a, e) => if f.chosen e then removeCell f s i a e else pure ()

/-- `for_each` over the cells from `i` on. -/
def forEach (f : Functor) (s : Nat) : Nat → Nat → Call HTTPCacheTable Unit
  | 0, _ => pure ()
  | n + 1, i => do
    applyFunctor f s i
    forEach f s n (i + 1)

/-- `slot->erase (remove (.., 0), ..)` -/
def HTTPCacheTable.eraseNulls (s : Nat) (t : HTTPCacheTable) : HTTPCacheTable :=
  setSlot s ((t.slots s).filter Option.isSome) t

def sweepSlot (f : Functor) (s : Nat) : Call HTTPCacheTable Unit := do
  let t ← get
  forEach f s (t.slots s).length 0
  modify (eraseNulls s)

def sweepSlots (f : Functor) : List Nat → Call HTTPCacheTable Unit
  | [] => pure ()
  | s :: ss => do
    sweepSlot f s
    sweepSlots f ss

def sweep (f : Functor) : Call HTTPCacheTable Unit := sweepSlots f (List.range CACHE_TABLE_SIZE)

/-- `DeleteExpired` -/
def expiredAt (time : Int) : Functor where
  chosen e := e.readers = 0 && e.freshnessLifetime < e.correctedInitialAge + (time - e.responseTime)
  locks := false

/-- `HTTPCacheTable::delete_expired_entries`; the time 0 means now. -/
def deleteExpiredEntries (now time : Int) : Call HTTPCacheTable Unit :=
  sweep (expiredAt (if time = 0 then now else time))

/-- `HTTPCacheTable::delete_by_hits`, `DeleteByHits` -/
def deleteByHits (hits : Int) : Call HTTPCacheTable Unit :=
  sweep ⟨fun e => e.readers = 0 && e.hits ≤ hits, false⟩

/-- `HTTPCacheTable::delete_by_size`, `DeleteBySize` -/
def deleteBySize (size : Nat) : Call HTTPCacheTable Unit :=
  sweep ⟨fun e => e.readers = 0 && size < e.size, false⟩

/-- `HTTPCacheTable::delete_all_entries`, `DeleteUnlockedCacheEntry`, and `cache_index_delete` -/
def deleteAllEntries : Call HTTPCacheTable Unit := do
  sweep ⟨fun _ => true, false⟩
  modify fun t => { t with newEntries := 0 }

/-- `HTTPCacheTable::remove_entry_from_cache_table`, `DeleteCacheEntry` -/
def removeEntryFromCacheTable (url : Word) : Call HTTPCacheTable Unit :=
  sweepSlot ⟨fun e => e.url = url, true⟩ (getHash url)

def addLines : List Word → Call HTTPCacheTable Unit
  | [] => pure ()
  | line :: lines => do
    addEntryToCacheTable (cacheIndexParseLine line)
    addLines lines

/-- `HTTPCacheTable::cache_index_read` of a file, or of none. -/
def cacheIndexRead (file : Option Word) : Call HTTPCacheTable Bool :=
  match file with
  | none => pure false
  | some text => do
    addLines (piecesOf text)
    modify fun t => { t with newEntries := 0 }
    pure true

/-- What `cache_index_write` writes. -/
def HTTPCacheTable.indexText (t : HTTPCacheTable) : Word :=
  (List.range CACHE_TABLE_SIZE).flatMap fun s =>
    (t.slots s).flatMap fun c => (c.map fun p => indexLine p.2).getD []

def cannotOpenIndex (index : String) : Fault :=
  .Error ("Cache Index. Can't open " ++ index ++ " for writing")

/-- `HTTPCacheTable::cache_index_write`; the file cannot be opened, or it gets the text. -/
def cacheIndexWrite (index : String) (opens : Bool) : Call HTTPCacheTable Word := do
  if opens then
    let t ← get
    modify fun t => { t with newEntries := 0 }
    pure t.indexText
  else throw (cannotOpenIndex index)

end Libdap.Http
