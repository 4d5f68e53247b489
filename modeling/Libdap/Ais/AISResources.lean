import Mathlib.Data.Char
import Mathlib.Data.List.Lex
import Libdap.Constraint.Word

/-! # The database of ancillary resources

Primary resources given as URLs are the keys of a map, those given as regular expressions the first parts of a vector of
pairs. A database is written as XML, by hand.
-/

namespace Libdap.Ais
open Constraint
set_option autoImplicit false

inductive Rule
  | overwrite
  | replace
  | fallback
  deriving DecidableEq

structure Resource where
  url : Word
  rule : Rule
  deriving DecidableEq

abbrev Entry : Type := Word × List Resource

/-- A new key at its place in the map; what is there already is appended to. -/
def insertUrl (url : Word) (rv : List Resource) : List Entry → List Entry
  | [] => [(url, rv)]
  | (key, old) :: rest =>
    if url < key then (url, rv) :: (key, old) :: rest
    else if key < url then (key, old) :: insertUrl url rv rest
    else (key, old ++ rv) :: rest

def insertRegexp (re : Word) (rv : List Resource) : List Entry → List Entry
  | [] => [(re, rv)]
  | (key, old) :: rest => if key = re then (key, old ++ rv) :: rest else (key, old) :: insertRegexp re rv rest

attribute [local grind =] insertUrl insertRegexp

def Ascending (db : List Entry) : Prop := db.Pairwise fun p q => p.1 < q.1

def Distinct (re : List Entry) : Prop := re.Pairwise fun p q => p.1 ≠ q.1

theorem key_of_insertUrl {url : Word} {rv : List Resource} {db : List Entry} {p : Entry} (h : p ∈ insertUrl url rv db) :
    p.1 = url ∨ ∃ q ∈ db, p.1 = q.1 := by
  induction db with
  | nil => exact Or.inl (congrArg Prod.fst (List.mem_singleton.mp h))
  | cons q db ih =>
    obtain ⟨key, old⟩ := q
    rw [insertUrl] at h
    split at h
    · obtain rfl | hOld := List.mem_cons.mp h
      · exact Or.inl rfl
      · exact Or.inr ⟨p, hOld, rfl⟩
    · split at h
      · obtain rfl | hOld := List.mem_cons.mp h
        · exact Or.inr ⟨(key, old), List.mem_cons_self, rfl⟩
        · obtain hKey | ⟨q, hq, hKey⟩ := ih hOld
          · exact Or.inl hKey
          · exact Or.inr ⟨q, List.mem_cons_of_mem _ hq, hKey⟩
      · obtain rfl | hOld := List.mem_cons.mp h
        · exact Or.inr ⟨(key, old), List.mem_cons_self, rfl⟩
        · exact Or.inr ⟨p, List.mem_cons_of_mem _ hOld, rfl⟩

theorem ascending_insertUrl (url : Word) (rv : List Resource) {db : List Entry} (h : Ascending db) :
    Ascending (insertUrl url rv db) := by
  induction db with
  | nil => exact List.pairwise_singleton _ _
  | cons q db ih =>
    obtain ⟨key, old⟩ := q
    obtain ⟨hFirst, hRest⟩ := List.pairwise_cons.mp h
    rw [insertUrl]
    split
    · rename_i hLess
      refine List.pairwise_cons.mpr ⟨?_, h⟩
      rintro p hp
      obtain rfl | hp := List.mem_cons.mp hp
      · exact hLess
      · exact lt_trans hLess (hFirst p hp)
    · split
      · rename_i hMore
        refine List.pairwise_cons.mpr ⟨?_, ih hRest⟩
        rintro p hp
        obtain hKey | ⟨q, hq, hKey⟩ := key_of_insertUrl hp
        · exact hKey ▸ hMore
        · exact hKey ▸ hFirst q hq
      · exact List.pairwise_cons.mpr ⟨hFirst, hRest⟩

theorem key_of_insertRegexp {re : Word} {rv : List Resource} {d : List Entry} {p : Entry}
    (h : p ∈ insertRegexp re rv d) : p.1 = re ∨ ∃ q ∈ d, p.1 = q.1 := by
  induction d with
  | nil => exact Or.inl (congrArg Prod.fst (List.mem_singleton.mp h))
  | cons q d ih =>
    obtain ⟨key, old⟩ := q
    rw [insertRegexp] at h
    split at h
    · obtain rfl | hOld := List.mem_cons.mp h
      · exact Or.inr ⟨(key, old), List.mem_cons_self, rfl⟩
      · exact Or.inr ⟨p, List.mem_cons_of_mem _ hOld, rfl⟩
    · obtain rfl | hOld := List.mem_cons.mp h
      · exact Or.inr ⟨(key, old), List.mem_cons_self, rfl⟩
      · obtain hKey | ⟨q, hq, hKey⟩ := ih hOld
        · exact Or.inl hKey
        · exact Or.inr ⟨q, List.mem_cons_of_mem _ hq, hKey⟩

theorem distinct_insertRegexp (re : Word) (rv : List Resource) {d : List Entry} (h : Distinct d) :
    Distinct (insertRegexp re rv d) := by
  induction d with
  | nil => exact List.pairwise_singleton _ _
  | cons q d ih =>
    obtain ⟨key, old⟩ := q
    obtain ⟨hFirst, hRest⟩ := List.pairwise_cons.mp h
    rw [insertRegexp]
    split
    · exact List.pairwise_cons.mpr ⟨hFirst, hRest⟩
    · rename_i hOther
      refine List.pairwise_cons.mpr ⟨?_, ih hRest⟩
      rintro p hp
      obtain hKey | ⟨q, hq, hKey⟩ := key_of_insertRegexp hp
      · exact hKey ▸ hOther
      · exact hKey ▸ hFirst q hq

/-- `d_re` and `d_db` -/
structure AISResources where
  re : List Entry
  db : List Entry
  distinct : Distinct re
  ascending : Ascending db

namespace AISResources

@[ext] theorem ext_lists {a b : AISResources} (hRe : a.re = b.re) (hDb : a.db = b.db) : a = b := by
  cases a
  cases b
  cases hRe
  cases hDb
  rfl

def empty : AISResources := ⟨[], [], List.Pairwise.nil, List.Pairwise.nil⟩

def addUrlResource (url : Word) (rv : List Resource) (a : AISResources) : AISResources :=
  ⟨a.re, insertUrl url rv a.db, a.distinct, ascending_insertUrl url rv a.ascending⟩

def addRegexpResource (re : Word) (rv : List Resource) (a : AISResources) : AISResources :=
  ⟨insertRegexp re rv a.re, a.db, distinct_insertRegexp re rv a.distinct, a.ascending⟩

end AISResources

/-! ## Writing -/

def Resource.write (r : Resource) : Word :=
  "<ancillary".toList ++ ((if r.rule = .overwrite then [] else
    " rule=\"".toList ++ (if r.rule = .fallback then "fallback\"".toList else "replace\"".toList)) ++
    (" url=\"".toList ++ (r.url ++ "\"/>".toList)))

/-- An entry, with the attribute that its primary resource is written as. -/
def writeEntry (attr : Word) (e : Entry) : Word :=
  "<entry>\n".toList ++ ("<primary ".toList ++ (attr ++ ("=\"".toList ++ (e.1 ++ ("\"/>\n".toList ++
    (e.2.flatMap (fun r => r.write ++ "\n".toList) ++ "</entry>\n".toList))))))

def prolog : Word :=
  "<?xml version=\"1.0\" encoding=\"US-ASCII\" standalone=\"yes\"?>\n".toList ++
    "<!DOCTYPE ais SYSTEM \"http://xml.opendap.org/ais/ais_database.dtd\">\n".toList

/-- What `write_database` writes into the file. -/
def AISResources.writeDatabase (a : AISResources) : Word :=
  prolog ++ ("<ais xmlns=\"http://xml.opendap.org/ais\">\n".toList ++ (a.re.flatMap (writeEntry "regexp".toList) ++
    (a.db.flatMap (writeEntry "url".toList) ++ ("</ais>\n".toList ++ "\n".toList))))

end Libdap.Ais
