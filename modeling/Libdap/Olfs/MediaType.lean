import Libdap.Core.Fault
import Libdap.Core.KeyedSet
import Libdap.Olfs.JavaString
import Mathlib.Data.Char
import Mathlib.Data.List.Induction
import Mathlib.Data.List.Lex
import Mathlib.Data.List.MinMax
import Mathlib.Data.Rat.Defs
import Mathlib.Algebra.Order.Ring.Rat

/-! # The choice of a responder

A media range of the header `Accept` is read with its first parameter only. The ranges that name a responder go into a
set that is ordered by their qualities, and the last of the set tells the responder.
-/

namespace Libdap.Olfs
open Core Constraint
set_option autoImplicit false

/-- `Double.parseDouble` of a number without sign, exponent and suffix. The doubles of quality values compare as the
numbers do. -/
def parseDouble (s : Word) : Option ℚ :=
  let whole := (trim s).takeWhile Char.isDigit
  match (trim s).dropWhile Char.isDigit with
  | [] => if whole.isEmpty then none else some (valueOf 10 whole)
  | '.' :: fraction =>
    if fraction.all Char.isDigit && !(whole ++ fraction).isEmpty then
      some ((valueOf 10 (whole ++ fraction) : ℚ) / 10 ^ fraction.length)
    else none
  | _ => none

structure MediaType where
  mimeType : Word
  primaryType : Word
  subType : Word
  quality : ℚ

namespace MediaType

/-- The entries of `params`: the loop goes over the parameters and reads the first of them each time. -/
def params (parts : List Word) : KeyedMap Word Word :=
  parts.tail.foldl (fun params _ =>
    match split '=' (parts.getD 1 []) with
    | [key, value] => params.set key value
    | _ => params) KeyedSet.empty

def qualityOf (parts : List Word) : ℚ :=
  match (params parts).find ['q'] with
  | some text =>
    match parseDouble text with
    | some value => if 0 < value ∧ value ≤ 1 then value else 1
    | none => 1
  | none => 1

/-- `MediaType(String)` -/
def ofText (acceptMediaType : Word) : Except JavaException MediaType :=
  let parts := split ';' acceptMediaType
  match parts with
  | [] => .error .indexOutOfBounds
  | mimeType :: _ =>
    match split '/' mimeType with
    | [primaryType, subType] => .ok ⟨mimeType, primaryType, subType, qualityOf parts⟩
    | _ => .ok ⟨mimeType, mimeType, [], qualityOf parts⟩

end MediaType

/-- The normative media type of a responder. -/
structure Responder where
  primaryType : Word
  subType : Word
  deriving DecidableEq, Repr

def Responder.mimeType (r : Responder) : Word := r.primaryType ++ '/' :: r.subType

/-- `Dap4Responder` with its alternatives. -/
structure Dap4Responder where
  this : Responder
  altResponders : List Responder

namespace Dap4Responder

/-- `matchingTypes` and `responderMap`; a range is known by its place in the header, as objects are by their identity. -/
structure Matches where
  matchingTypes : KeyedSet (fun e : Nat × MediaType => e.2.quality)
  responderMap : KeyedMap Nat Responder

namespace Matches

def none : Matches := ⟨KeyedSet.empty, KeyedSet.empty⟩

def put (m : Matches) (i : Nat) (mt : MediaType) (r : Responder) : Matches :=
  ⟨m.matchingTypes.insert (i, mt), m.responderMap.set i r⟩

end Matches

def namesThis (this : Responder) (mt : MediaType) : Bool :=
  if equalsIgnoreCase mt.mimeType this.mimeType then true
  else if equalsIgnoreCase mt.primaryType this.primaryType && equalsIgnoreCase mt.subType ['*'] then true
  else equalsIgnoreCase mt.primaryType ['*'] && equalsIgnoreCase mt.subType ['*']

/-- The whole media type of the alternative is compared with the type of the range. -/
def namesAlt (alt : Responder) (mt : MediaType) : Bool :=
  if equalsIgnoreCase mt.mimeType alt.mimeType then true
  else equalsIgnoreCase mt.primaryType alt.mimeType && equalsIgnoreCase mt.subType ['*']

/-- The body of the loop. -/
def consider (d : Dap4Responder) (m : Matches) (i : Nat) (mt : MediaType) : Matches :=
  d.altResponders.foldl (fun m alt => if namesAlt alt mt then m.put i mt alt else m)
    (if namesThis d.this mt then m.put i mt d.this else m)

def considerAll (d : Dap4Responder) (types : List MediaType) : Matches :=
  types.zipIdx.foldl (fun m (mt, i) => d.consider m i mt) Matches.none

def getBestResponderForHttpRequest (d : Dap4Responder) (accept : Option Word) :
    Except JavaException (Option Responder) :=
  match accept with
  | none => .ok d.this
  | some acceptsHeaderValue => do
    let clientMediaTypes ← (split ',' acceptsHeaderValue).mapM MediaType.ofText
    let m := d.considerAll clientMediaTypes
    .ok (m.matchingTypes.elems.getLast?.bind fun e => m.responderMap.find e.1)

/-! ## The range that decides -/

/-- Whom the map holds for a range at the end: the last alternative it names, or else this responder. -/
def assigned (d : Dap4Responder) (mt : MediaType) : Option Responder :=
  (d.altResponders.filter (namesAlt · mt)).getLast?.or (if namesThis d.this mt then some d.this else none)

/-- The qualities of the ranges that name a responder, with the responders. -/
def named (d : Dap4Responder) (types : List MediaType) : List (ℚ × Responder) :=
  types.filterMap fun mt => (d.assigned mt).map (mt.quality, ·)

/-- What the set and the map tell so far. -/
structure Tells (m : Matches) (n : Nat) (pairs : List (ℚ × Responder)) : Prop where
  earlier : ∀ e ∈ m.matchingTypes.elems, e.1 < n
  last : m.matchingTypes.elems.getLast?.map (fun e => (e.2.quality, m.responderMap.find e.1)) =
    (pairs.argmax Prod.fst).map fun p => (p.1, some p.2)

variable {d : Dap4Responder} {m : Matches} {n : Nat} {mt : MediaType} {pairs : List (ℚ × Responder)}

theorem Tells.later (h : Tells m n pairs) : Tells m (n + 1) pairs :=
  ⟨fun e he => Nat.lt_succ_of_lt (h.earlier e he), h.last⟩

/-- The first responder that is put for a range. -/
theorem Tells.put (h : Tells m n pairs) (mt : MediaType) (r : Responder) :
    Tells (m.put n mt r) (n + 1) (pairs ++ [(mt.quality, r)]) where
  earlier e he := by
    obtain hOld | ⟨rfl, -⟩ := KeyedSet.mem_insert.mp he
    · exact Nat.lt_succ_of_lt (h.earlier e hOld)
    · exact Nat.lt_succ_self n
  last := by
    have hLast := h.last
    have hPlaced := getLast?_place m.matchingTypes.ordered (n, mt)
    have hFind (k : Nat) (hk : k < n) : (m.put n mt r).responderMap.find k = m.responderMap.find k := by
      rw [Matches.put, KeyedSet.find_set, if_neg (Nat.ne_of_lt hk)]
    have hNew : (m.put n mt r).responderMap.find n = some r := by rw [Matches.put, KeyedSet.find_set, if_pos rfl]
    change ((place _ (n, mt) m.matchingTypes.elems).getLast?).map _ = _
    rw [hPlaced, List.argmax_concat]
    cases hSet : m.matchingTypes.elems.getLast? with
    | none =>
      rw [hSet] at hLast
      rw [Option.map_eq_none_iff.mp hLast.symm]
      simp only [Option.map_some, hNew]
    | some e =>
      obtain ⟨k, t⟩ := e
      have hEarlier := h.earlier _ (List.mem_of_getLast? hSet)
      rw [hSet, Option.map_some] at hLast
      obtain ⟨⟨q, r'⟩, hBest, hPair⟩ := Option.map_eq_some_iff.mp hLast.symm
      obtain ⟨rfl, hOld⟩ := Prod.mk.inj hPair
      rw [hBest]
      dsimp only
      split
      · simp only [Option.map_some, hNew]
      · simp only [Option.map_some, hFind k hEarlier, hOld]

/-- The same set and the same entries of the map. -/
structure Alike (m m' : Matches) : Prop where
  types : m.matchingTypes.elems = m'.matchingTypes.elems
  finds : ∀ k, m.responderMap.find k = m'.responderMap.find k

theorem Alike.tells {m m' : Matches} (h : Alike m m') (hTells : Tells m' n pairs) : Tells m n pairs where
  earlier := h.types ▸ hTells.earlier
  last := by
    rw [h.types, ← hTells.last]
    simp only [h.finds]

/-- A range that already names a responder is in the set and only the map changes. -/
theorem Alike.put {m m' : Matches} {r? : Option Responder}
    (h : Alike m (r?.elim m' (m'.put n mt))) (r : Responder) : Alike (m.put n mt r) (m'.put n mt r) where
  types := by
    change place _ (n, mt) m.matchingTypes.elems = place _ (n, mt) m'.matchingTypes.elems
    rw [h.types]
    cases r? with
    | none => rfl
    | some r' => exact place_place _ _
  finds k := by
    rw [Matches.put, Matches.put, KeyedSet.find_set, KeyedSet.find_set, h.finds]
    cases r? with
    | none => rfl
    | some r' =>
      rw [Option.elim_some, Matches.put, KeyedSet.find_set]
      split
      · rfl
      · rfl

theorem alts_put (alts : List Responder) {m m' : Matches} {r? : Option Responder}
    (h : Alike m (r?.elim m' (m'.put n mt))) :
    Alike (alts.foldl (fun m alt => if namesAlt alt mt then m.put n mt alt else m) m)
      (((alts.filter (namesAlt · mt)).getLast?.or r?).elim m' (m'.put n mt)) := by
  induction alts generalizing m r? with
  | nil => exact h
  | cons alt alts ih =>
    rw [List.foldl_cons]
    by_cases hNamed : namesAlt alt mt = true
    · have hRest := @ih _ (some alt) (h.put alt)
      have hFilter : (alt :: alts).filter (namesAlt · mt) = alt :: alts.filter (namesAlt · mt) :=
        List.filter_cons_of_pos (p := (namesAlt · mt)) hNamed
      rw [if_pos hNamed, hFilter, List.getLast?_cons, Option.some_or]
      cases hLast : (alts.filter (namesAlt · mt)).getLast? with
      | none =>
        rw [hLast] at hRest
        exact hRest
      | some r =>
        rw [hLast] at hRest
        exact hRest
    · have hFilter : (alt :: alts).filter (namesAlt · mt) = alts.filter (namesAlt · mt) :=
        List.filter_cons_of_neg (p := (namesAlt · mt)) hNamed
      rw [if_neg hNamed, hFilter]
      exact ih h

/-- What the loop's body does with one range. -/
theorem Tells.consider (h : Tells m n pairs) (mt : MediaType) :
    Tells (d.consider m n mt) (n + 1) (pairs ++ ((d.assigned mt).map (mt.quality, ·)).toList) := by
  have hStart : Alike (if namesThis d.this mt then m.put n mt d.this else m)
      ((if namesThis d.this mt then some d.this else none).elim m (m.put n mt)) := by
    split
    · exact ⟨rfl, fun k => rfl⟩
    · exact ⟨rfl, fun k => rfl⟩
  have hAlike : Alike (d.consider m n mt) ((d.assigned mt).elim m (m.put n mt)) := alts_put d.altResponders hStart
  refine hAlike.tells ?_
  cases d.assigned mt with
  | none =>
    rw [Option.map_none, Option.toList_none, List.append_nil]
    exact h.later
  | some r => exact h.put mt r

theorem considerAll_tells (d : Dap4Responder) (types : List MediaType) :
    Tells (d.considerAll types) types.length (d.named types) := by
  induction types using List.reverseRec with
  | nil => exact ⟨nofun, rfl⟩
  | append_singleton types mt ih =>
    have hStep := Tells.consider (d := d) ih mt
    have hAll : d.considerAll (types ++ [mt]) = d.consider (d.considerAll types) types.length mt := by
      rw [considerAll, List.zipIdx_append, List.foldl_append, Nat.zero_add]
      rfl
    have hNamed : d.named (types ++ [mt]) = d.named types ++ ((d.assigned mt).map (mt.quality, ·)).toList := by
      rw [named, List.filterMap_append, List.filterMap_cons]
      cases d.assigned mt with
      | none => rfl
      | some r => rfl
    rw [hAll, hNamed, List.length_append, List.length_singleton]
    exact hStep

/-- The first of the ranges of the highest quality among those that name a responder. -/
theorem best_eq {d : Dap4Responder} {header : Word} {types : List MediaType}
    (h : (split ',' header).mapM MediaType.ofText = .ok types) :
    d.getBestResponderForHttpRequest (some header) = .ok (((d.named types).argmax Prod.fst).map Prod.snd) := by
  have hLast := (considerAll_tells d types).last
  rw [getBestResponderForHttpRequest, h, ok_bind]
  dsimp only
  cases hBest : (d.named types).argmax Prod.fst with
  | none =>
    rw [hBest] at hLast
    rw [Option.map_eq_none_iff.mp hLast]
    rfl
  | some p =>
    rw [hBest] at hLast
    obtain ⟨e, hSet, hPair⟩ := Option.map_eq_some_iff.mp hLast
    rw [hSet, Option.bind_some, (Prod.mk.inj hPair).2]
    rfl

end Dap4Responder

end Libdap.Olfs
