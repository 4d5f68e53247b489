import Libdap.Http.Decimal

/-! # Entries of the cache, and the headers they are made from

Times are seconds since 1970 in a `time_t` of 64 bits; sums of them are taken as exact.
-/

namespace Libdap.Http
open Core Constraint
set_option autoImplicit false

structure CacheEntry where
  url : Word
  hash : Int
  hits : Int
  cachename : Word
  etag : Word
  lm : Int
  expires : Int
  date : Int
  age : Int
  maxAge : Int
  size : Nat
  range : Bool
  freshnessLifetime : Int
  responseTime : Int
  correctedInitialAge : Int
  mustRevalidate : Bool
  noCache : Bool
  readers : Int
  /-- Somebody holds `d_response_lock`. -/
  responseLock : Bool
  /-- Somebody holds `d_response_write_lock`. -/
  writeLock : Bool
  deriving DecidableEq, Repr

def CACHE_TABLE_SIZE : Nat := 1499

def getHash (url : Word) : Nat :=
  (cString url).foldl (fun hash c => (hash * 3 + c.toNat % 256) % CACHE_TABLE_SIZE) 0

/-- The constructor without a URL. -/
def CacheEntry.empty : CacheEntry where
  url := []
  hash := -1
  hits := 0
  cachename := []
  etag := []
  lm := -1
  expires := -1
  date := -1
  age := -1
  maxAge := -1
  size := 0
  range := false
  freshnessLifetime := 0
  responseTime := 0
  correctedInitialAge := 0
  mustRevalidate := false
  noCache := false
  readers := 0
  responseLock := false
  writeLock := false

def CacheEntry.new (url : Word) : CacheEntry := { CacheEntry.empty with url := url, hash := getHash url }

/-- `entry_disk_space`, whose size is an `int` and whose sum is an `unsigned int`. -/
def entryDiskSpace (size blockSize : Nat) : Int :=
  int32 (uint32 (uint32 (int32 size + blockSize) / blockSize * blockSize : Nat))

/-- `string::find` of a text -/
def find (pattern : Word) : Word → Option Nat
  | [] => if pattern.isEmpty then some 0 else none
  | c :: cs => if pattern.isPrefixOf (c :: cs) then some 0 else (find pattern cs).map (· + 1)

/-- The headers that `parse_headers` looks for. -/
inductive Header
  | etag
  | lastModified
  | expires
  | date
  | age
  | contentLength
  | cacheControl
  | other
  deriving DecidableEq, Repr

def Header.ofName (name : Word) : Header :=
  if name = "ETag".toList then .etag
  else if name = "Last-Modified".toList then .lastModified
  else if name = "Expires".toList then .expires
  else if name = "Date".toList then .date
  else if name = "Age".toList then .age
  else if name = "Content-Length".toList then .contentLength
  else if name = "Cache-Control".toList then .cacheControl
  else .other

/-- A header line and its value. A line without a colon is skipped. -/
def headerOf (line : Word) : Header × Word :=
  if ':' ∈ line then
    (.ofName (line.takeWhile (· ≠ ':')), line.drop (((find ": ".toList line).map (· + 2)).getD 1))
  else (.other, [])

def ULONG_MAX : Nat := 18446744073709551615

/-- `strtoul (value, 0, 0)` -/
def strtoul (value : Word) : Nat :=
  match number baseOf (cString value) with
  | none => 0
  | some (negative, v, _) =>
    if ULONG_MAX < v then ULONG_MAX else if negative then (ULONG_MAX + 1 - v) % (ULONG_MAX + 1) else v

/-- `"=" + 1`, a pointer to the null character -/
def equalsPlusOne : Word := "=".toList.drop 1

def mentionsMaxAge (value : Word) : Bool := (find "max-age".toList value).isSome

def cacheControl (now : Int) (e : CacheEntry) (value : Word) : Option CacheEntry :=
  if value = "no-cache".toList ∨ value = "no-store".toList then some { e with noCache := true }
  else if value = "must-revalidate".toList then some { e with mustRevalidate := true }
  else if mentionsMaxAge value then
    (parseTime now (value.drop ((find equalsPlusOne value).getD 0))).map fun t => { e with maxAge := t }
  else some e

/-- What a line of the headers does to the entry. -/
def parseHeader (now : Int) (maxEntrySize : Nat) (e : CacheEntry) (line : Word) : Option CacheEntry :=
  match headerOf line with
  | (.etag, value) => some { e with etag := value }
  | (.lastModified, value) => (parseTime now value).map fun t => { e with lm := t }
  | (.expires, value) => (parseTime now value).map fun t => { e with expires := t }
  | (.date, value) => (parseTime now value).map fun t => { e with date := t }
  | (.age, value) => (parseTime now value).map fun t => { e with age := t }
  | (.contentLength, value) =>
    some (if maxEntrySize < strtoul value then { e with noCache := true } else e)
  | (.cacheControl, value) => cacheControl now e value
  | (.other, _) => some e

/-- `HTTPCacheTable::parse_headers`, at the time `now`. -/
def parseHeaders (now : Int) (maxEntrySize : Nat) (e : CacheEntry) (headers : List Word) :
    Option CacheEntry :=
  headers.foldlM (parseHeader now maxEntrySize) e

def MAX_LM_EXPIRATION : Int := 48 * 3600

/-- `LM_EXPIRATION` -/
def lmExpiration (t : Int) : Int := min MAX_LM_EXPIRATION (int32 (t.tdiv 10))

def freshnessOf (e : CacheEntry) (defaultExpiration : Int) : Int :=
  if e.maxAge < 0 then
    if e.expires < 0 then
      if e.lm < 0 then defaultExpiration else lmExpiration (e.date - e.lm)
    else e.expires - e.date
  else e.maxAge

/-- `HTTPCacheTable::calculate_time`, at the time `now`. -/
def calculateTime (now : Int) (e : CacheEntry) (defaultExpiration requestTime : Int) : CacheEntry :=
  { e with
    responseTime := now
    correctedInitialAge := max (max 0 (int32 (now - e.date))) e.age + (now - requestTime)
    freshnessLifetime := max 0 (int32 (freshnessOf e defaultExpiration)) }

/-- The request's directives, negative where there are none. -/
structure Directives where
  alwaysValidate : Bool
  maxAge : Int
  maxStale : Int
  minFresh : Int

def Directives.none : Directives := ⟨false, -1, -1, -1⟩

/-- `HTTPCache::is_url_valid` for an entry of the table, at the time `now`. -/
def isValid (d : Directives) (now : Int) (e : CacheEntry) : Bool :=
  let currentAge := e.correctedInitialAge + (now - e.responseTime)
  if d.alwaysValidate then false
  else if e.mustRevalidate then false
  else if d.maxAge ≥ 0 ∧ currentAge > d.maxAge then false
  else if d.minFresh ≥ 0 ∧ e.freshnessLifetime < currentAge + d.minFresh then false
  else e.freshnessLifetime + (if d.maxStale ≥ 0 then d.maxStale else 0) > currentAge

end Libdap.Http

/-! ## The index file

One line for each entry, its fields separated by blanks. The reader takes 1023 characters at a time and
reads the fields from a stream, which keeps its state: after a field that cannot be read, the rest of
the entry stays as the constructor made it.
-/

namespace Libdap.Http
open Core Constraint
set_option autoImplicit false

def CACHE_EMPTY_ETAG : Word := "@cache@".toList

/-- What is left of a stream, or nothing after a failure. -/
abbrev Extraction := Option Word

def notSpace (c : Char) : Bool := !isSpace c

/-- `iss >> string` -/
def extractWord (s : Extraction) : Word × Extraction :=
  match s.map (List.dropWhile isSpace) with
  | none => ([], none)
  | some [] => ([], none)
  | some (c :: cs) => ((c :: cs).takeWhile notSpace, some ((c :: cs).dropWhile notSpace))

/-- `iss >> n` for a signed type with these bounds, of a field with the value `old`. -/
def extractInt (low high old : Int) (s : Extraction) : Int × Extraction :=
  match s with
  | none => (old, none)
  | some text =>
    if (text.dropWhile isSpace).isEmpty then (old, none)
    else match decimalNumber text with
      | none => (0, none)
      | some (negative, v, rest) =>
        let n : Int := if negative then -v else v
        if n < low then (low, none) else if high < n then (high, none) else (n, some rest)

def extractLong (old : Int) (s : Extraction) : Int × Extraction :=
  extractInt (-LONG_MAX - 1) LONG_MAX old s

def extractShortInt (old : Int) (s : Extraction) : Int × Extraction :=
  extractInt (-INT_MAX - 1) INT_MAX old s

/-- `iss >> size`, an `unsigned long`. A sign is taken modulo 2^64. -/
def extractUnsigned (old : Nat) (s : Extraction) : Nat × Extraction :=
  match s with
  | none => (old, none)
  | some text =>
    if (text.dropWhile isSpace).isEmpty then (old, none)
    else match decimalNumber text with
      | none => (0, none)
      | some (negative, v, rest) =>
        if ULONG_MAX < v then (ULONG_MAX, none)
        else (if negative then (ULONG_MAX + 1 - v) % (ULONG_MAX + 1) else v, some rest)

/-- `iss >> flag`, a `bool`. -/
def extractBool (old : Bool) (s : Extraction) : Bool × Extraction :=
  match s with
  | none => (old, none)
  | some text =>
    if (text.dropWhile isSpace).isEmpty then (old, none)
    else match decimalNumber text with
      | none => (false, none)
      | some (negative, v, rest) =>
        if v = 0 then (false, some rest)
        else if v = 1 ∧ negative = false then (true, some rest)
        else (true, none)

/-- The fields behind the size. -/
def parseTail (e : CacheEntry) (s : Extraction) : CacheEntry :=
  let (range, s) := extractBool e.range s
  let (hash, s) := extractShortInt e.hash s
  let (hits, s) := extractShortInt e.hits s
  let (freshnessLifetime, s) := extractLong e.freshnessLifetime s
  let (responseTime, s) := extractLong e.responseTime s
  let (correctedInitialAge, s) := extractLong e.correctedInitialAge s
  let (mustRevalidate, _) := extractBool e.mustRevalidate s
  { e with
    range := range
    hash := hash
    hits := hits
    freshnessLifetime := freshnessLifetime
    responseTime := responseTime
    correctedInitialAge := correctedInitialAge
    mustRevalidate := mustRevalidate }

/-- `HTTPCacheTable::cache_index_parse_line` -/
def cacheIndexParseLine (line : Word) : CacheEntry :=
  let (url, s) := extractWord (some (cString line))
  let (cachename, s) := extractWord s
  let (etag, s) := extractWord s
  let (lm, s) := extractLong (-1) s
  let (expires, s) := extractLong (-1) s
  let (size, s) := extractUnsigned 0 s
  parseTail
    { CacheEntry.empty with
      url := url
      cachename := cachename
      etag := if etag = CACHE_EMPTY_ETAG then [] else etag
      lm := lm
      expires := expires
      size := size } s

/-- `fgets (line, n + 1, fp)`: what it reads, and what is left of the file. -/
def fgets : Nat → Word → Word × Word
  | 0, file => ([], file)
  | _, [] => ([], [])
  | n + 1, c :: cs => if c = '\n' then ([c], cs) else (c :: (fgets n cs).1, (fgets n cs).2)

/-- The pieces that the reader gets from a file, in so many calls at most. -/
def pieces : Nat → Word → List Word
  | 0, _ => []
  | _, [] => []
  | fuel + 1, c :: cs => (fgets 1023 (c :: cs)).1 :: pieces fuel (fgets 1023 (c :: cs)).2

def piecesOf (file : Word) : List Word := pieces file.length file

def flag (b : Bool) : Word := if b then ['1'] else ['0']

/-- An `unsigned long` printed as a `long`. -/
def asLong (n : Nat) : Int := (n + 9223372036854775808 : Int) % 18446744073709551616 - 9223372036854775808

/-- The fields of a line, as `fprintf` prints them. -/
def indexFields (e : CacheEntry) : List Word :=
  [cString e.url, cString e.cachename, if e.etag = [] then CACHE_EMPTY_ETAG else cString e.etag,
    integer e.lm, integer e.expires, integer (asLong e.size), flag e.range, integer e.hash, integer e.hits,
    integer e.freshnessLifetime, integer e.responseTime, integer e.correctedInitialAge, flag e.mustRevalidate]

def joined : List Word → Word
  | [] => []
  | [w] => w
  | w :: ws => w ++ ' ' :: joined ws

/-- What `WriteOneCacheEntry` writes. -/
def indexLine (e : CacheEntry) : Word := joined (indexFields e) ++ "\r\n".toList

end Libdap.Http
