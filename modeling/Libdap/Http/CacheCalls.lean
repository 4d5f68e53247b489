import Libdap.Http.DateTime
import Libdap.Http.GarbageCollection
import Libdap.Http.Metadata

/-! # The calls of the cache

Each call locks the interface, and whatever happens unlocks it. What the files give, or how they fail, is an argument.
-/

namespace Libdap.Http
open Core Constraint HTTPCacheTable
set_option autoImplicit false

/-- The cache, its mutex, and what its callers set. -/
structure CacheInterface where
  cache : HTTPCache
  /-- Somebody holds `d_cache_mutex`. -/
  interfaceLock : Bool
  defaultExpiration : Int
  directives : Directives

/-! ## The handles of the entries in use -/

/-- `HTTPCacheTable::bind_entry_to_data` -/
def bindEntryToData (a body : Nat) : Call HTTPCacheTable Unit := do
  let e ← readEntry a
  modify (setEntry a { e with hits := e.hits + 1 })
  modify fun t => { t with lockedEntries := (body, some a) :: t.lockedEntries.filter fun p => p.1 ≠ body }

def noResponse : Fault := .InternalErr "There is no cache entry for the response given."

def notLocked : Fault := .InternalErr "An unlocked entry was released"

/-- `HTTPCacheTable::uncouple_entry_from_data`. A map has a null entry for a key that it was asked for. -/
def uncoupleEntryFromData (body : Nat) : Call HTTPCacheTable Unit := do
  let t ← get
  match t.lockedEntries.lookup body with
  | none => do
    set { t with lockedEntries := (body, none) :: t.lockedEntries }
    throw noResponse
  | some none => throw noResponse
  | some (some a) => do
    set { t with lockedEntries := t.lockedEntries.filter fun p => p.1 ≠ body }
    unlockReadResponse a
    let e ← readEntry a
    if e.readers < 0 then throw notLocked else pure ()

/-- `HTTPCacheTable::is_locked_read_responses` -/
def HTTPCacheTable.isLockedReadResponses (t : HTTPCacheTable) : Bool := !t.lockedEntries.isEmpty

namespace CacheInterface

def onEntries {α : Type} (x : Call HTTPCacheTable α) : Call CacheInterface α :=
  Call.on (fun s => s.cache.table) (fun s t => { s with cache := { s.cache with table := t } }) x

def onCache {α : Type} (x : Call HTTPCache α) : Call CacheInterface α :=
  Call.on CacheInterface.cache (fun s c => { s with cache := c }) x

def lockCacheInterface : Call CacheInterface Unit := do
  let s ← get
  if s.interfaceLock then throw .undefined else set { s with interfaceLock := true }

def unlockCacheInterface : Call CacheInterface Unit := modify fun s => { s with interfaceLock := false }

/-- What all handlers do. -/
def unlocking {α : Type} (x : Call CacheInterface α) : Call CacheInterface α :=
  tryCatch x fun f => do
    unlockCacheInterface
    throw f

/-- A call that holds the lock. -/
def interface {α : Type} (x : Call CacheInterface α) : Call CacheInterface α := do
  lockCacheInterface
  let a ← unlocking x
  unlockCacheInterface
  pure a

/-! ## Responses -/

/-- What `create_location` and `write_body` give, and how the files of the headers and of the index fail. -/
structure ResponseFiles where
  location : Except Fault Word
  size : Except Fault Nat
  metadata : Option Fault
  index : Option Fault

/-- The new entry, if it is to be cached. One that a file fails is in no table. -/
def cacheEntry (now responseTime : Int) (maxEntrySize : Nat) (defaultExpiration requestTime : Int) (url : Word)
    (headers : List Word) (files : ResponseFiles) : Call HTTPCacheTable Bool := do
  removeEntryFromCacheTable url
  let locked ← orWait (CacheEntry.new url).lockWrite
  let parsed ← orWait (parseHeaders now maxEntrySize locked headers)
  if parsed.noCache then pure false
  else do
    let timed := calculateTime responseTime parsed defaultExpiration requestTime
    let cachename ← Call.ofExcept files.location
    let size ← Call.ofExcept files.size
    let _ ← Call.ofExcept (writeMetadataFile files.metadata headers)
    let t ← get
    addEntryToCacheTable { timed with cachename := cachename, size := size }
    unlockWriteResponse t.nextAddress
    pure true

def DUMP_FREQUENCY : Int := 10

/-- `HTTPCacheTable::cache_index_write`, unless the file fails it. -/
def writeIndex (index : String) (failure : Option Fault) : Call HTTPCacheTable Word :=
  match failure with
  | some f => throw f
  | none => cacheIndexWrite index true

def collectIfFull (now : Int) : Call HTTPCache Unit := do
  let c ← get
  if c.startGC then performGarbageCollection now else pure ()

/-- After more than ten new entries the cache looks at its size and writes the index. -/
def dumpIndex (now : Int) (index : String) (failure : Option Fault) : Call CacheInterface Unit := do
  let s ← get
  if s.cache.table.newEntries > DUMP_FREQUENCY then do
    onCache (collectIfFull now)
    let _ ← onEntries (writeIndex index failure)
    pure ()
  else pure ()

/-- `HTTPCache::cache_response`, with the times at which it reads the headers, calculates and collects. -/
def cacheResponse (now responseTime later : Int) (index : String) (url : Word) (requestTime : Int)
    (headers : List Word) (files : ResponseFiles) : Call CacheInterface Bool :=
  interface do
    if find "http:".toList url = none ∧ find "https:".toList url = none then pure false
    else do
      let s ← get
      let cached ← onEntries (cacheEntry now responseTime s.cache.maxEntrySize s.defaultExpiration requestTime url
        headers files)
      if cached then do
        dumpIndex later index files.index
        pure true
      else pure false

/-- `HTTPCache::update_response` -/
def updateResponse (now responseTime : Int) (url : Word) (requestTime : Int) (headers : List Word)
    (oldHeaders : Except Fault (List Word)) (failure : Option Fault) : Call CacheInterface (List Word) :=
  interface do
    let s ← get
    onEntries (Http.updateResponse now responseTime s.cache.maxEntrySize s.defaultExpiration requestTime url headers
      oldHeaders failure)

/-- The body, the headers and the name of the file of an entry. -/
def openResponse (metadata : Except Fault (List Word)) (body : Except Fault Nat) (a : Nat) :
    Call HTTPCacheTable (Nat × List Word × Word) := do
  let e ← readEntry a
  let headers ← Call.ofExcept metadata
  let handle ← Call.ofExcept body
  bindEntryToData a handle
  pure (handle, headers, e.cachename)

/-- `HTTPCache::get_cached_response`. `metadata` is what `read_metadata` gives, `body` what `open_body` does. What went
wrong does not give the lock of the entry back. -/
def getCachedResponse (url : Word) (metadata : Except Fault (List Word)) (body : Except Fault Nat) :
    Call CacheInterface (Option (Nat × List Word × Word)) := do
  lockCacheInterface
  match ← onEntries (getLockedEntry url) with
  | none => do
    unlockCacheInterface
    pure none
  | some a => do
    let response ← unlocking (onEntries (openResponse metadata body a))
    unlockCacheInterface
    pure (some response)

/-- `HTTPCache::release_cached_response` -/
def releaseCachedResponse (body : Nat) : Call CacheInterface Unit := interface (onEntries (uncoupleEntryFromData body))

/-! ## Validation -/

/-- What `result` is of the entry, which is locked meanwhile. -/
def ofEntry {α : Type} (result : CacheEntry → α) (url : Word) : Call HTTPCacheTable α := do
  match ← getLockedEntry url with
  | none => throw (noEntry url)
  | some a => do
    let e ← readEntry a
    unlockReadResponse a
    pure (result e)

/-- `HTTPCache::is_url_valid`, at the time `now`. -/
def isUrlValid (now : Int) (url : Word) : Call CacheInterface Bool :=
  interface do
    let s ← get
    if s.directives.alwaysValidate then pure false else onEntries (ofEntry (isValid s.directives now) url)

def ifModifiedSince (t : Int) : Word := "If-Modified-Since: ".toList ++ dateTimeStr t

def conditionalHeaders (e : CacheEntry) : List Word :=
  (if e.etag ≠ [] then ["If-None-Match: ".toList ++ e.etag] else []) ++
    if e.lm > 0 then [ifModifiedSince e.lm]
    else if e.maxAge > 0 then [ifModifiedSince e.maxAge]
    else if e.expires > 0 then [ifModifiedSince e.expires]
    else []

/-- `HTTPCache::get_conditional_request_headers` -/
def getConditionalRequestHeaders (url : Word) : Call CacheInterface (List Word) :=
  interface (onEntries (ofEntry conditionalHeaders url))

/-! ## Purging -/

def entriesInUse : Fault := .Error "Attempt to purge the cache with entries in use."

/-- `HTTPCache::purge_cache` -/
def purgeCache : Call CacheInterface Unit :=
  interface do
    let s ← get
    if s.cache.table.isLockedReadResponses then throw entriesInUse else onEntries deleteAllEntries

/-! ## Any of them -/

inductive CacheCall
  | cacheResponse (now responseTime later : Int) (index : String) (url : Word) (requestTime : Int)
    (headers : List Word) (files : ResponseFiles)
  | updateResponse (now responseTime : Int) (url : Word) (requestTime : Int) (headers : List Word)
    (oldHeaders : Except Fault (List Word)) (failure : Option Fault)
  | getCachedResponse (url : Word) (metadata : Except Fault (List Word)) (body : Except Fault Nat)
  | releaseCachedResponse (body : Nat)
  | isUrlValid (now : Int) (url : Word)
  | getConditionalRequestHeaders (url : Word)
  | purgeCache
  | performGarbageCollection (now : Int)

def CacheCall.run : CacheCall → Call CacheInterface Unit
  | .cacheResponse now responseTime later index url requestTime headers files => do
    let _ ← CacheInterface.cacheResponse now responseTime later index url requestTime headers files
  | .updateResponse now responseTime url requestTime headers oldHeaders failure => do
    let _ ← CacheInterface.updateResponse now responseTime url requestTime headers oldHeaders failure
  | .getCachedResponse url metadata body => do
    let _ ← CacheInterface.getCachedResponse url metadata body
  | .releaseCachedResponse body => CacheInterface.releaseCachedResponse body
  | .isUrlValid now url => do
    let _ ← CacheInterface.isUrlValid now url
  | .getConditionalRequestHeaders url => do
    let _ ← CacheInterface.getConditionalRequestHeaders url
  | .purgeCache => CacheInterface.purgeCache
  | .performGarbageCollection now => onCache (Http.performGarbageCollection now)

/-- The cache after its constructor has read the index, if there is one. -/
def Opened (s : CacheInterface) : Prop :=
  s.interfaceLock = false ∧
    ∃ blockSize file found, cacheIndexRead file (.new blockSize) = .ok found s.cache.table

end CacheInterface

end Libdap.Http
