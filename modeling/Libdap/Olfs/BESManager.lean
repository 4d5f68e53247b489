import Mathlib.Data.List.Basic
import Libdap.Constraint.Word

/-! # Which BES serves a path

The BESs are in groups with one prefix each, and the group whose prefix is the longest one of a path gives its
next member. What a group gave is kept in the request's cache for as long as the request lasts.
-/

namespace Libdap.Olfs
open Constraint
set_option autoImplicit false

inductive JavaException
  | nullPointer
  | arithmetic
  | indexOutOfBounds
  | badConfiguration (msg : Word)
  deriving DecidableEq, Repr

structure CyclicGroup (α : Type) where
  members : List α
  nextMemberIndex : Int
  deriving DecidableEq, Repr

namespace CyclicGroup

variable {α : Type}

def add (g : CyclicGroup α) (e : α) : CyclicGroup α := { g with members := g.members ++ [e] }

/-- `nextMemberIndex.getAndIncrement() % members.size()`, where the remainder has the sign of the index. -/
def getNext (g : CyclicGroup α) : Except JavaException α × CyclicGroup α :=
  let index := g.nextMemberIndex.tmod g.members.length
  let g' := { g with nextMemberIndex := if g.nextMemberIndex = 2147483647 then -2147483648 else g.nextMemberIndex + 1 }
  if g.members = [] then (.error .arithmetic, g')
  else if index < 0 then (.error .indexOutOfBounds, g')
  else
    match g.members[index.toNat]? with
    | some e => (.ok e, g')
    | none => (.error .indexOutOfBounds, g')

end CyclicGroup

structure BES where
  getPrefix : Word
  nickName : Word
  deriving DecidableEq, Repr

/-- `trimPrefix`, of a path that may be null. -/
def BES.trimPrefix (bes : BES) (dataset : Option Word) : Except JavaException (Option Word) :=
  if bes.getPrefix = "/".toList then .ok dataset
  else
    match dataset with
    | none => .error .nullPointer
    | some path => if path.length < bes.getPrefix.length then .error .indexOutOfBounds else .ok
      (some (path.drop bes.getPrefix.length))

structure BesGroup where
  groupPrefix : Word
  cycle : CyclicGroup BES
  deriving DecidableEq, Repr

/-- The objects of a request, for each thread that has opened a cache for them. -/
abbrev ThreadCache := Option (Word → Option BES)

namespace BesGroup

def new (groupPrefix : Word) : BesGroup := ⟨groupPrefix, [], 0⟩

def add (g : BesGroup) (bes : BES) : BesGroup :=
  if bes.getPrefix ≠ g.groupPrefix then g else { g with cycle := g.cycle.add bes }

def responseCacheKey : Word := "opendap.bes.BesGroup.getNext()".toList

def getNext (g : BesGroup) (cache : ThreadCache) : Except JavaException BES × BesGroup × ThreadCache :=
  match cache.bind (· responseCacheKey) with
  | some bes => (.ok bes, g, cache)
  | none =>
    match g.cycle.getNext with
    | (.error e, cycle) => (.error e, { g with cycle := cycle }, cache)
    | (.ok bes, cycle) =>
      match cache with
      | none => (.error .nullPointer, { g with cycle := cycle }, none)
      | some hm => (.ok bes, { g with cycle := cycle }, some (Function.update hm responseCacheKey (some bes)))

end BesGroup

/-- The path that the prefixes are compared with. -/
def slashed (path : Option Word) : Word :=
  let path := path.getD "/".toList
  if path.head? = some '/' then path else '/' :: path

/-- The group with the longer prefix, and where it stands. -/
def longer (result : Option (Nat × BesGroup)) (i : Nat) (besGroup : BesGroup) : Option (Nat × BesGroup) :=
  match result with
  | none => some (i, besGroup)
  | some (j, found) => if found.groupPrefix.length < besGroup.groupPrefix.length then some (i, besGroup) else some (j,
    found)

/-- The loop of `getBES` and `getBesGroup`. -/
def scan (path : Word) : List BesGroup → Nat → Option (Nat × BesGroup) → Option (Nat × BesGroup)
  | [], _, result => result
  | besGroup :: rest, i, result =>
    scan path rest (i + 1) (if besGroup.groupPrefix.isPrefixOf path then longer result i besGroup else result)

def getBesGroup (besCollection : List BesGroup) (path : Option Word) : Option (Nat × BesGroup) :=
  scan (slashed path) besCollection 0 none

/-- One round of `configure`. -/
def configureBes (besCollection : List BesGroup) (bes : BES) : List BesGroup :=
  match getBesGroup besCollection (some bes.getPrefix) with
  | none => besCollection ++ [(BesGroup.new bes.getPrefix).add bes]
  | some (i, found) =>
    if found.groupPrefix ≠ bes.getPrefix then besCollection ++ [(BesGroup.new bes.getPrefix).add bes]
    else besCollection.set i (found.add bes)

def configure (besList : List BES) : Except JavaException (List BesGroup) :=
  if besList = [] then
    .error (.badConfiguration ("OLFS Configuration must contain at LEAST one BES configuration element. And the value of it's " ++
      "prefix element  must be \"/\".").toList)
  else if ∀ bes ∈ besList, bes.getPrefix ≠ "/".toList then
    .error (.badConfiguration ("OLFS Configuration must contain at LEAST one BES configuration element. Whose prefix is \"/\". " ++
      "(Why? Think about it...)").toList)
  else .ok (besList.foldl configureBes [])

structure Manager where
  besCollection : List BesGroup
  cache : ThreadCache

/-- `getBES`, which may be null. -/
def Manager.getBES (m : Manager) (path : Option Word) : Except JavaException (Option BES) × Manager :=
  match scan (slashed path) m.besCollection 0 none with
  | none => (.ok none, m)
  | some (i, besGroup) =>
    match besGroup.getNext m.cache with
    | (result, besGroup, cache) => (result.map some, ⟨m.besCollection.set i besGroup, cache⟩)

/-- The results for the paths that one request asks for. -/
def Manager.request (m : Manager) : List (Option Word) → List (Except JavaException (Option BES))
  | [] => []
  | path :: paths => (m.getBES path).1 :: (m.getBES path).2.request paths

/-- With the cache that is opened for a request. -/
def Manager.opened (besCollection : List BesGroup) : Manager := ⟨besCollection, some fun _ => none⟩

end Libdap.Olfs
