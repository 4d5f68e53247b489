import Mathlib.Data.List.Nodup
import Mathlib.Data.List.Perm.Basic
import Libdap.Constraint.Word
import Libdap.Core.Bytes
import Libdap.Core.Process
import Libdap.Core.RecordLock

/-! # A cache directory and the calls that work on it

The files of the cache that have a name, the files themselves (a process may still have one open that has lost
its name), and the cache info file with the total size.
-/

namespace Libdap.Cache
open Core Constraint
set_option autoImplicit false

structure CacheDisk (Pid : Type) where
  entries : List (Word × Nat)
  content : Nat → Bytes
  locks : Nat → Locks Pid
  /-- The number that the next file gets. -/
  next : Nat
  info : Nat
  infoLocks : Locks Pid
  names : (entries.map Prod.fst).Nodup
  inodes : (entries.map Prod.snd).Nodup
  born : ∀ e ∈ entries, e.2 < next
  unborn : ∀ i, next ≤ i → content i = [] ∧ locks i = .none

inductive Sys : Type → Type
  /-- `fcntl` with `F_SETLKW` on the info file. -/
  | setLockInfo (type : LockType) : Sys Bool
  | unlockInfo : Sys Unit
  | readInfo : Sys Nat
  | writeInfo (size : Nat) : Sys Unit
  | openFile (name : Word) : Sys (Option Nat)
  /-- `open` with `O_CREAT | O_EXCL`. -/
  | createFile (name : Word) : Sys (Option Nat)
  /-- `fcntl` with `F_SETLKW` -/
  | setLockWait (fd : Nat) (type : LockType) : Sys Bool
  /-- `fcntl` with `F_SETLK` -/
  | setLock (fd : Nat) (type : LockType) : Sys Bool
  /-- `close`, with which all locks of the process on the file go. -/
  | close (fd : Nat) : Sys Unit
  | write (fd : Nat) (data : Bytes) : Sys Unit
  /-- The size and the time of the last access. -/
  | stat (name : Word) : Sys (Option (Nat × Int))
  | unlink (name : Word) : Sys Bool
  | readdir : Sys (List Word)

/-- What the kernel is free in: whether a lock that would have to wait fails instead (a deadlock, a signal), and
a file's access time. -/
structure Choice where
  interrupted : Bool
  atime : Int

namespace CacheDisk

variable {Pid : Type}

def find (s : CacheDisk Pid) (name : Word) : Option Nat := (s.entries.find? fun e => e.1 = name).map Prod.snd

theorem find_iff {s : CacheDisk Pid} {name : Word} {i : Nat} : s.find name = some i ↔ (name, i) ∈ s.entries := by
  rw [find, Option.map_eq_some_iff]
  constructor
  · rintro ⟨⟨n, j⟩, hFind, rfl⟩
    have hName := List.find?_some hFind
    rw [decide_eq_true_eq] at hName
    cases hName
    exact List.mem_of_find?_eq_some hFind
  · intro hMem
    cases hFind : s.entries.find? fun e => e.1 = name with
    | none =>
      rw [List.find?_eq_none] at hFind
      exact absurd (decide_eq_true rfl) (hFind _ hMem)
    | some e =>
      have hName := List.find?_some hFind
      rw [decide_eq_true_eq] at hName
      have hSame := List.inj_on_of_nodup_map s.names (List.mem_of_find?_eq_some hFind) hMem hName
      exact ⟨e, rfl, by rw [hSame]⟩

theorem find_none {s : CacheDisk Pid} {name : Word} (h : s.find name = none) (i : Nat) : (name, i) ∉ s.entries := by
  intro hMem
  rw [find_iff.mpr hMem] at h
  cases h

/-- A name has one file and a file one name. -/
theorem entry_inode {s : CacheDisk Pid} {name : Word} {i j : Nat} (hi : (name, i) ∈ s.entries)
    (hj : (name, j) ∈ s.entries) :
    i = j :=
  (Prod.mk.inj (List.inj_on_of_nodup_map s.names hi hj rfl)).2

theorem entry_name {s : CacheDisk Pid} {n k : Word} {i : Nat} (hn : (n, i) ∈ s.entries) (hk : (k, i) ∈ s.entries) :
    n = k :=
  (Prod.mk.inj (List.inj_on_of_nodup_map s.inodes hn hk rfl)).1

def withLocks (s : CacheDisk Pid) (fd : Nat) (l : Locks Pid) (h : fd < s.next) : CacheDisk Pid :=
  { s with
    locks := Function.update s.locks fd l
    unborn := by
      intro i hi
      refine ⟨(s.unborn i hi).1, ?_⟩
      rw [Function.update_of_ne (by omega)]
      exact (s.unborn i hi).2 }

section
variable {s : CacheDisk Pid} {fd : Nat} {l : Locks Pid} {h : fd < s.next}

@[simp] theorem withLocks_entries : (s.withLocks fd l h).entries = s.entries := rfl
@[simp] theorem withLocks_content : (s.withLocks fd l h).content = s.content := rfl
@[simp] theorem withLocks_info : (s.withLocks fd l h).info = s.info := rfl
@[simp] theorem withLocks_infoLocks : (s.withLocks fd l h).infoLocks = s.infoLocks := rfl
@[simp] theorem withLocks_self : (s.withLocks fd l h).locks fd = l := Function.update_self ..

theorem withLocks_of_ne {i : Nat} (hi : i ≠ fd) : (s.withLocks fd l h).locks i = s.locks i :=
    Function.update_of_ne hi ..

end

def append (s : CacheDisk Pid) (fd : Nat) (data : Bytes) (h : fd < s.next) : CacheDisk Pid :=
  { s with
    content := Function.update s.content fd (s.content fd ++ data)
    unborn := by
      intro i hi
      refine ⟨?_, (s.unborn i hi).2⟩
      rw [Function.update_of_ne (by omega)]
      exact (s.unborn i hi).1 }

def created (s : CacheDisk Pid) (name : Word) (h : s.find name = none) : CacheDisk Pid :=
  { s with
    entries := (name, s.next) :: s.entries
    next := s.next + 1
    names := by
      rw [List.map_cons, List.nodup_cons]
      refine ⟨?_, s.names⟩
      intro hMem
      obtain ⟨⟨n, i⟩, hi, rfl⟩ := List.mem_map.mp hMem
      exact find_none h i hi
    inodes := by
      rw [List.map_cons, List.nodup_cons]
      refine ⟨?_, s.inodes⟩
      intro hMem
      obtain ⟨e, he, hNext⟩ := List.mem_map.mp hMem
      have hLt := s.born e he
      omega
    born := by
      intro e he
      rcases List.mem_cons.mp he with rfl | he
      · exact Nat.lt_succ_self _
      · exact Nat.lt_succ_of_lt (s.born e he)
    unborn := fun i hi => s.unborn i (Nat.le_of_succ_le hi) }

def without (s : CacheDisk Pid) (name : Word) : CacheDisk Pid :=
  { s with
    entries := s.entries.filter fun e => e.1 ≠ name
    names := s.names.sublist (List.filter_sublist.map _)
    inodes := s.inodes.sublist (List.filter_sublist.map _)
    born := fun e he => s.born e (List.mem_filter.mp he).1 }

/-- The sum of the files' sizes. -/
def size (s : CacheDisk Pid) : Nat := (s.entries.map fun e => (s.content e.2).length).sum

section
variable [DecidableEq Pid]

/-- A call, unless it has to wait. A descriptor is the number of its file. -/
def serve (p : Pid) (choice : Choice) : {β : Type} → Sys β → CacheDisk Pid → Option (β × CacheDisk Pid)
  | _, .setLockInfo type, s =>
    match s.infoLocks.acquire p type with
    | some l => some (true, { s with infoLocks := l })
    | none => if choice.interrupted then some (false, s) else none
  | _, .unlockInfo, s => some ((), { s with infoLocks := s.infoLocks.release p })
  | _, .readInfo, s => some (s.info, s)
  | _, .writeInfo size, s => some ((), { s with info := size })
  | _, .openFile name, s => some (s.find name, s)
  | _, .createFile name, s =>
    if h : s.find name = none then some (some s.next, s.created name h) else some (none, s)
  | _, .setLockWait fd type, s =>
    if h : fd < s.next then
      match (s.locks fd).acquire p type with
      | some l => some (true, s.withLocks fd l h)
      | none => if choice.interrupted then some (false, s) else none
    else some (false, s)
  | _, .setLock fd type, s =>
    if h : fd < s.next then
      match (s.locks fd).acquire p type with
      | some l => some (true, s.withLocks fd l h)
      | none => some (false, s)
    else some (false, s)
  | _, .close fd, s => if h : fd < s.next then some ((), s.withLocks fd ((s.locks fd).release p) h) else some ((), s)
  | _, .write fd data, s => if h : fd < s.next then some ((), s.append fd data h) else some ((), s)
  | _, .stat name, s => some ((s.find name).map fun i => ((s.content i).length, choice.atime), s)
  | _, .unlink name, s => if (s.find name).isSome then some (true, s.without name) else some (false, s)
  | _, .readdir, s => some (s.entries.map Prod.fst, s)

variable {p : Pid} {choice : Choice} {s s' : CacheDisk Pid}

theorem serve_setLockInfo {t : LockType} {ok : Bool} (h : serve p choice (.setLockInfo t) s = some (ok, s')) :
    (∃ l, s.infoLocks.acquire p t = some l ∧ ok = true ∧ s' = { s with infoLocks := l }) ∨
      (s.infoLocks.acquire p t = none ∧ ok = false ∧ s' = s) := by
  simp only [serve] at h
  split at h
  · rename_i l hLock
    cases h
    exact .inl ⟨l, hLock, rfl, rfl⟩
  · rename_i hLock
    split at h
    · cases h
      exact .inr ⟨hLock, rfl, rfl⟩
    · cases h

theorem serve_setLockWait {fd : Nat} {t : LockType} {ok : Bool}
    (h : serve p choice (.setLockWait fd t) s = some (ok, s')) :
    (∃ hFd l, (s.locks fd).acquire p t = some l ∧ ok = true ∧ s' = s.withLocks fd l hFd) ∨
      ((s.next ≤ fd ∨ (s.locks fd).acquire p t = none) ∧ ok = false ∧ s' = s) := by
  simp only [serve] at h
  split at h
  · rename_i hFd
    split at h
    · rename_i l hLock
      cases h
      exact .inl ⟨hFd, l, hLock, rfl, rfl⟩
    · rename_i hLock
      split at h
      · cases h
        exact .inr ⟨.inr hLock, rfl, rfl⟩
      · cases h
  · rename_i hFd
    cases h
    exact .inr ⟨.inl (Nat.le_of_not_lt hFd), rfl, rfl⟩

theorem serve_setLock {fd : Nat} {t : LockType} {ok : Bool} (h : serve p choice (.setLock fd t) s = some (ok, s')) :
    (∃ hFd l, (s.locks fd).acquire p t = some l ∧ ok = true ∧ s' = s.withLocks fd l hFd) ∨
      ((s.next ≤ fd ∨ (s.locks fd).acquire p t = none) ∧ ok = false ∧ s' = s) := by
  simp only [serve] at h
  split at h
  · rename_i hFd
    split at h
    · rename_i l hLock
      cases h
      exact .inl ⟨hFd, l, hLock, rfl, rfl⟩
    · rename_i hLock
      cases h
      exact .inr ⟨.inr hLock, rfl, rfl⟩
  · rename_i hFd
    cases h
    exact .inr ⟨.inl (Nat.le_of_not_lt hFd), rfl, rfl⟩

theorem serve_close {fd : Nat} {u : Unit} (h : serve p choice (.close fd) s = some (u, s')) :
    (∃ hFd, s' = s.withLocks fd ((s.locks fd).release p) hFd) ∨ (s.next ≤ fd ∧ s' = s) := by
  simp only [serve] at h
  split at h
  · rename_i hFd
    cases h
    exact .inl ⟨hFd, rfl⟩
  · rename_i hFd
    cases h
    exact .inr ⟨Nat.le_of_not_lt hFd, rfl⟩

theorem serve_createFile {name : Word} {fd : Option Nat} (h : serve p choice (.createFile name) s = some (fd, s')) :
    (∃ hNone, fd = some s.next ∧ s' = s.created name hNone) ∨ (fd = none ∧ s' = s) := by
  simp only [serve] at h
  split at h
  · rename_i hNone
    cases h
    exact .inl ⟨hNone, rfl, rfl⟩
  · cases h
    exact .inr ⟨rfl, rfl⟩

theorem serve_write {fd : Nat} {data : Bytes} {u : Unit} (h : serve p choice (.write fd data) s = some (u, s')) :
    (∃ hFd, s' = s.append fd data hFd) ∨ (s.next ≤ fd ∧ s' = s) := by
  simp only [serve] at h
  split at h
  · rename_i hFd
    cases h
    exact .inl ⟨hFd, rfl⟩
  · rename_i hFd
    cases h
    exact .inr ⟨Nat.le_of_not_lt hFd, rfl⟩

theorem serve_unlink {name : Word} {ok : Bool} (h : serve p choice (.unlink name) s = some (ok, s')) :
    (ok = true ∧ s' = s.without name) ∨ (s.find name = none ∧ ok = false ∧ s' = s) := by
  simp only [serve] at h
  split at h
  · cases h
    exact .inl ⟨rfl, rfl⟩
  · rename_i hNone
    cases h
    exact .inr ⟨by simpa using hNone, rfl, rfl⟩

end

/-! ## What a step does -/

/-- Only the names are worked on with the info file locked, a name is only taken off a file that the process has
for itself, and only such a file is written. -/
def Proper (p : Pid) (s : CacheDisk Pid) : {β : Type} → Sys β → Prop
  | _, .createFile _ => s.infoLocks.Holds p .write
  | _, .unlink name => s.infoLocks.Holds p .write ∧ ∀ i, (name, i) ∈ s.entries → (s.locks i).Holds p .write
  | _, .write fd _ => (s.locks fd).Holds p .write
  | _, _ => True

/-- What a proper step of a process leaves to the others. -/
structure Steps (p : Pid) (s s' : CacheDisk Pid) : Prop where
  infoLocks : ∀ q t, q ≠ p → (s'.infoLocks.Holds q t ↔ s.infoLocks.Holds q t)
  locks : ∀ i q t, q ≠ p → ((s'.locks i).Holds q t ↔ (s.locks i).Holds q t)
  entries : s'.entries = s.entries ∨ s.infoLocks.Holds p .write
  kept : ∀ e ∈ s.entries, e ∈ s'.entries ∨ (s.locks e.2).Holds p .write
  content : ∀ i, s'.content i = s.content i ∨ (s.locks i).Holds p .write

theorem Steps.refl (p : Pid) (s : CacheDisk Pid) : Steps p s s :=
  ⟨fun _ _ _ => Iff.rfl, fun _ _ _ _ => Iff.rfl, .inl rfl, fun _ he => .inl he, fun _ => .inl rfl⟩

theorem withLocks_steps {p : Pid} {s : CacheDisk Pid} {fd : Nat} {l : Locks Pid} (h : fd < s.next)
    (hOther : ∀ q t, q ≠ p → (l.Holds q t ↔ (s.locks fd).Holds q t)) : Steps p s (s.withLocks fd l h) where
  infoLocks _ _ _ := Iff.rfl
  locks i q t hNot := by
    rcases eq_or_ne i fd with rfl | hi
    · rw [withLocks_self]
      exact hOther q t hNot
    · rw [withLocks_of_ne hi]
  entries := .inl rfl
  kept _ he := .inl he
  content _ := .inl rfl

theorem infoLocks_steps {p : Pid} {s : CacheDisk Pid} {l : Locks Pid}
    (hOther : ∀ q t, q ≠ p → (l.Holds q t ↔ s.infoLocks.Holds q t)) : Steps p s { s with infoLocks := l } :=
  ⟨hOther, fun _ _ _ _ => Iff.rfl, .inl rfl, fun _ he => .inl he, fun _ => .inl rfl⟩

theorem serve_steps [DecidableEq Pid] {p : Pid} {choice : Choice} {β : Type} {c : Sys β} {s s' : CacheDisk Pid} {b : β}
    (h : s.Proper p c) (hServe : serve p choice c s = some (b, s')) : Steps p s s' := by
  cases c with
  | setLockInfo type =>
    rcases serve_setLockInfo hServe with ⟨l, hLock, -, rfl⟩ | ⟨-, -, rfl⟩
    · exact infoLocks_steps fun q t hNot => Locks.acquire_other hLock hNot
    · exact .refl p s'
  | unlockInfo =>
    cases hServe
    exact infoLocks_steps fun q t hNot => Locks.release_other hNot
  | writeInfo size =>
    cases hServe
    exact ⟨fun _ _ _ => Iff.rfl, fun _ _ _ _ => Iff.rfl, .inl rfl, fun _ he => .inl he, fun _ => .inl rfl⟩
  | createFile name =>
    rcases serve_createFile hServe with ⟨hNone, -, rfl⟩ | ⟨-, rfl⟩
    · exact ⟨fun _ _ _ => Iff.rfl, fun _ _ _ _ => Iff.rfl, .inr h, fun _ he => .inl (List.mem_cons_of_mem _ he),
        fun _ => .inl rfl⟩
    · exact .refl p s'
  | setLockWait fd type =>
    rcases serve_setLockWait hServe with ⟨hFd, l, hLock, -, rfl⟩ | ⟨-, -, rfl⟩
    · exact withLocks_steps hFd fun q t hNot => Locks.acquire_other hLock hNot
    · exact .refl p s'
  | setLock fd type =>
    rcases serve_setLock hServe with ⟨hFd, l, hLock, -, rfl⟩ | ⟨-, -, rfl⟩
    · exact withLocks_steps hFd fun q t hNot => Locks.acquire_other hLock hNot
    · exact .refl p s'
  | close fd =>
    rcases serve_close hServe with ⟨hFd, rfl⟩ | ⟨-, rfl⟩
    · exact withLocks_steps hFd fun q t hNot => Locks.release_other hNot
    · exact .refl p s'
  | write fd data =>
    rcases serve_write hServe with ⟨hFd, rfl⟩ | ⟨-, rfl⟩
    · refine ⟨fun _ _ _ => Iff.rfl, fun _ _ _ _ => Iff.rfl, .inl rfl, fun _ he => .inl he, fun i => ?_⟩
      rcases eq_or_ne i fd with rfl | hi
      · exact .inr h
      · left
        simp only [append, Function.update_of_ne hi]
    · exact .refl p s'
  | unlink name =>
    rcases serve_unlink hServe with ⟨-, rfl⟩ | ⟨-, -, rfl⟩
    · refine ⟨fun _ _ _ => Iff.rfl, fun _ _ _ _ => Iff.rfl, .inr h.1, fun e he => ?_, fun _ => .inl rfl⟩
      rcases eq_or_ne e.1 name with rfl | hName
      · exact .inr (h.2 e.2 he)
      · left
        simp only [without, List.mem_filter]
        exact ⟨he, by simpa using hName⟩
    · exact .refl p s'
  | readInfo | openFile name | stat name | readdir =>
    cases hServe
    exact .refl p s

/-! ## What no step of another process changes -/

section
variable {p q : Pid} {s s' : CacheDisk Pid} (h : Steps q s s') (hNot : q ≠ p)
include h hNot

theorem Steps.holdsInfo {t : LockType} (hp : s.infoLocks.Holds p t) : s'.infoLocks.Holds p t :=
  (h.infoLocks p t hNot.symm).mpr hp

theorem Steps.holds {i : Nat} {t : LockType} (hp : (s.locks i).Holds p t) : (s'.locks i).Holds p t :=
  (h.locks i p t hNot.symm).mpr hp

/-- The names, as long as the process has the info file locked. -/
theorem Steps.entries_eq {t : LockType} (hp : s.infoLocks.Holds p t) : s'.entries = s.entries := by
  rcases h.entries with hSame | hWrite
  · exact hSame
  · exact absurd (hWrite.alone hp) hNot.symm

/-- The name of a file that it has locked. -/
theorem Steps.keeps {e : Word × Nat} {t : LockType} (hp : (s.locks e.2).Holds p t) (he : e ∈ s.entries) :
    e ∈ s'.entries := by
  rcases h.kept e he with hKept | hWrite
  · exact hKept
  · exact absurd (hWrite.alone hp) hNot.symm

/-- What is in a file that it has locked. -/
theorem Steps.content_eq {i : Nat} {t : LockType} (hp : (s.locks i).Holds p t) : s'.content i = s.content i := by
  rcases h.content i with hSame | hWrite
  · exact hSame
  · exact absurd (hWrite.alone hp) hNot.symm

end

end CacheDisk

end Libdap.Cache
