import Libdap.Cache.DAPCache3

/-! # What a purge spares

A name is only taken off a file that the purging process has for itself, so no file goes that another process
has locked, and the purge does not touch the new file.
-/

namespace Libdap.Cache
open Core Constraint CacheDisk
set_option autoImplicit false

section
variable {Pid : Type}

/-- A call of a purge for a new file: locks are tried on other files that have a name. -/
def PurgeCall (newFile : Word) (s : CacheDisk Pid) : {β : Type} → Sys β → Prop
  | _, .setLock fd _ => (∃ n, (n, fd) ∈ s.entries) ∧ ∀ i, (newFile, i) ∈ s.entries → fd ≠ i
  | _, .close fd => ∀ i, (newFile, i) ∈ s.entries → fd ≠ i
  | _, .unlink name => name ≠ newFile
  | _, .createFile _ => False
  | _, .setLockWait _ _ => False
  | _, .write _ _ => False
  | _, _ => True

def purgeContract (Pid : Type) : Contract Pid (CacheDisk Pid) (CacheDisk Pid) CacheOp Choice Sys where
  real := id
  inv _ := True
  guar := Steps
  cond _ _ _ _ _ _ := True
  link p op _ c s := s.Proper p c ∧ ∀ newFile, op = .updateAndPurge newFile → PurgeCall newFile s c

abbrev Purges [DecidableEq Pid] {α : Type} (limits : CacheLimits) (p : Pid) (op : CacheOp) (P : CacheDisk Pid → Prop)
    (x : Proc α)
    (Q : α → CacheDisk Pid → Prop) : Prop :=
  (purgeContract Pid).Meets (cacheMachine Pid limits) p op P x Q fun _ _ => True

variable {limits : CacheLimits} {p : Pid} {op : CacheOp} {P P' : CacheDisk Pid → Prop} {α β : Type}

/-! ## What lasts between steps -/

theorem holdsInfo_stable (t : LockType) : (purgeContract Pid).Stable p fun s => s.infoLocks.Holds p t :=
  fun _ _ _ hNot _ _ hSteps h => Steps.holdsInfo hSteps hNot h

theorem holds_stable (fd : Nat) (t : LockType) : (purgeContract Pid).Stable p fun s => (s.locks fd).Holds p t :=
  fun _ _ _ hNot _ _ hSteps h => Steps.holds hSteps hNot h

/-- Whatever is said of the names, while the info file is locked. -/
theorem entries_stable (φ : List (Word × Nat) → Prop) :
    (purgeContract Pid).Stable p fun s => s.infoLocks.Holds p .write ∧ φ s.entries := by
  rintro q s s' hNot - - hSteps ⟨hHolds, h⟩
  exact ⟨Steps.holdsInfo hSteps hNot hHolds, by rwa [Steps.entries_eq hSteps hNot hHolds]⟩

theorem true_stable : (purgeContract Pid).Stable p fun _ => True := fun _ _ _ _ _ _ _ h => h

variable [DecidableEq Pid]

theorem purges_sys {c : Sys β} {Q : β → CacheDisk Pid → Prop} (hStable : (purgeContract Pid).Stable p P)
    (hProper : ∀ s, P s → s.Proper p c) (hCall : ∀ newFile, op = .updateAndPurge newFile → ∀ s, P s →
      PurgeCall newFile s c)
    (hStep : ∀ s choice b s', P s → serve p choice c s = some (b, s') → Q b s') :
    Purges limits p op P (Program.sys c) Q := by
  apply Contract.Meets.sys hStable
  · exact fun s _ hP => ⟨hProper s hP, fun newFile hOp => hCall newFile hOp s hP⟩
  · intro s choice b s' _ hP hServe _
    exact ⟨s', rfl, trivial, serve_steps (hProper s hP) hServe, hStep s choice b s' hP hServe⟩

theorem failUnless_purges {ok : Bool} {msg : String} (h : ok = true → ∀ s, P s → P' s) :
    Purges limits p op P (failUnless ok msg) fun _ => P' := by
  rw [failUnless]
  split
  · rename_i hOk
    exact Contract.Meets.ret fun s _ hP => h hOk s hP
  · exact Contract.Meets.throw fun _ _ _ => trivial

theorem unlockCache_purges (hStable : (purgeContract Pid).Stable p P)
    (hFrame : ∀ s l, P s → P' { s with infoLocks := l }) : Purges limits p op P unlockCache fun _ => P' := by
  apply purges_sys (c := .unlockInfo) hStable (fun _ _ => trivial) (fun _ _ _ _ => trivial)
  rintro s choice _ _ hP ⟨⟩
  exact hFrame s _ hP

theorem unlockCache_true (hStable : (purgeContract Pid).Stable p P) :
    Purges limits p op P unlockCache fun _ _ => True :=
  unlockCache_purges hStable fun _ _ _ => trivial

theorem unlockingCache_purges {x : Proc α} {Q : α → CacheDisk Pid → Prop} (h : Purges limits p op P x Q) :
    Purges limits p op P (unlockingCache x) Q := by
  apply Contract.Meets.tryCatch h
  intro f
  exact (unlockCache_true true_stable).bind fun _ => Contract.Meets.throw fun _ _ _ => trivial

theorem lockCacheWrite_purges : Purges limits p op (fun _ => True) lockCacheWrite fun _ s => s.infoLocks.Holds p
    .write := by
  have hLock : Purges limits p op (fun _ => True) (Program.sys (.setLockInfo .write))
      fun ok s => ok = true → s.infoLocks.Holds p .write := by
    apply purges_sys (c := .setLockInfo .write) true_stable (fun _ _ => trivial) (fun _ _ _ _ => trivial)
    intro s choice ok s' _ hServe hOk
    simp only [serve] at hServe
    split at hServe
    · rename_i l hAcquire
      cases hServe
      exact Locks.acquire_own hAcquire
    · split at hServe
      · cases hServe
        cases hOk
      · cases hServe
  apply hLock.bind
  exact fun ok => failUnless_purges fun hOk s hs => hs hOk

theorem lockCacheRead_purges : Purges limits p op (fun _ => True) lockCacheRead fun _ _ => True := by
  have hLock : Purges limits p op (fun _ => True) (Program.sys (.setLockInfo .read)) fun _ _ => True :=
    purges_sys (c := .setLockInfo .read) true_stable (fun _ _ => trivial)
      (fun _ _ _ _ => trivial) fun _ _ _ _ _ _ => trivial
  exact hLock.bind fun _ => failUnless_purges fun _ _ _ => trivial

theorem lockFile_purges (hOther : ∀ newFile, op ≠ .updateAndPurge newFile) {fd : Nat} {type : LockType}
    (hStable : (purgeContract Pid).Stable p P) (hFrame : ∀ s l h, P s → P (s.withLocks fd l h)) :
    Purges limits p op P (lockFile fd type) fun _ s => P s ∧ (s.locks fd).Holds p type := by
  have hLock : Purges limits p op P (Program.sys (.setLockWait fd type))
      fun ok s => ok = true → P s ∧ (s.locks fd).Holds p type := by
    apply purges_sys (c := .setLockWait fd type) hStable (fun _ _ => trivial)
      (fun newFile hOp => absurd hOp (hOther newFile))
    intro s choice ok s' hP hServe hOk
    rcases serve_setLockWait hServe with ⟨hFd, l, hAcquire, -, rfl⟩ | ⟨-, rfl, -⟩
    · refine ⟨hFrame s l hFd hP, ?_⟩
      rw [withLocks_self]
      exact Locks.acquire_own hAcquire
    · cases hOk
  have hClose : Purges limits p op (fun _ => True) (Program.sys (.close fd)) fun _ _ => True :=
    purges_sys (c := .close fd) true_stable (fun _ _ => trivial) (fun newFile hOp => absurd hOp (hOther newFile))
      fun _ _ _ _ _ _ => trivial
  apply hLock.bind
  intro ok
  cases ok with
  | true => exact Contract.Meets.ret fun s _ hs => hs rfl
  | false =>
    apply (hClose.weaken fun _ _ _ => trivial).bind
    exact fun _ => Contract.Meets.throw fun _ _ _ => trivial

theorem getReadLock_purges (hOther : ∀ newFile, op ≠ .updateAndPurge newFile) (target : Word) :
    Purges limits p op (fun _ => True) (getReadLock target) fun _ _ => True := by
  have hOpen : Purges limits p op (fun _ => True) (Program.sys (.openFile target)) fun _ _ => True :=
    purges_sys (c := .openFile target) true_stable (fun _ _ => trivial)
      (fun _ _ _ _ => trivial) fun _ _ _ _ _ _ => trivial
  have hLock : Purges limits p op (fun _ => True) (getLock target .read) fun _ _ => True := by
    apply hOpen.bind
    intro fd
    cases fd with
    | none => exact Contract.Meets.ret fun _ _ _ => trivial
    | some fd =>
      apply (lockFile_purges hOther true_stable fun _ _ _ _ => trivial).bind
      exact fun _ => Contract.Meets.ret fun _ _ _ => trivial
  apply lockCacheRead_purges.bind
  intro _
  apply hLock.bind
  intro fd
  apply (unlockCache_true true_stable).bind
  exact fun _ => Contract.Meets.ret fun _ _ _ => trivial

theorem createAndLock_purges (hOther : ∀ newFile, op ≠ .updateAndPurge newFile) (target : Word) :
    Purges limits p op (fun _ => True) (createAndLock target)
      fun r s => ∀ fd, r = some fd → (s.locks fd).Holds p .write := by
  have hCreate : Purges limits p op (fun s => s.infoLocks.Holds p .write) (Program.sys (.createFile target))
      fun _ s => s.infoLocks.Holds p .write := by
    apply purges_sys (c := .createFile target) (holdsInfo_stable .write) (fun _ hs => hs)
      (fun newFile hOp => absurd hOp (hOther newFile))
    intro s choice fd s' hs hServe
    rcases serve_createFile hServe with ⟨hNone, -, rfl⟩ | ⟨-, rfl⟩
    · exact hs
    · exact hs
  have hLocked : Purges limits p op (fun s => s.infoLocks.Holds p .write) (createLockedFile target)
      fun r s => ∀ fd, r = some fd → (s.locks fd).Holds p .write := by
    apply hCreate.bind
    intro fd
    cases fd with
    | none => exact Contract.Meets.ret fun _ _ _ => by rintro _ ⟨⟩
    | some fd =>
      apply (lockFile_purges hOther (holdsInfo_stable .write) fun _ _ _ hs => hs).bind
      intro _
      apply Contract.Meets.ret
      rintro s - ⟨-, hs⟩ _ ⟨⟩
      exact hs
  apply lockCacheWrite_purges.bind
  intro _
  apply hLocked.bind
  intro fd
  have hStable : (purgeContract Pid).Stable p fun s => ∀ i, fd = some i → (s.locks i).Holds p .write := by
    intro q s s' hNot _ _ hSteps h i hi
    exact Steps.holds hSteps hNot (h i hi)
  have hUnlock : Purges limits p op (fun s => ∀ i, fd = some i → (s.locks i).Holds p .write) unlockCache
      fun _ s => ∀ i, fd = some i → (s.locks i).Holds p .write :=
    unlockCache_purges hStable fun _ _ hs => hs
  exact hUnlock.bind fun _ => Contract.Meets.ret fun _ _ hs => hs

theorem writeAll_purges (hOther : ∀ newFile, op ≠ .updateAndPurge newFile) (fd : Nat) (data : List Bytes) :
    Purges limits p op (fun s => (s.locks fd).Holds p .write) (writeAll fd data) fun _ _ => True := by
  induction data with
  | nil => exact Contract.Meets.ret fun _ _ _ => trivial
  | cons data rest ih =>
    have hWrite : Purges limits p op (fun s => (s.locks fd).Holds p .write) (Program.sys (.write fd data))
        fun _ s => (s.locks fd).Holds p .write := by
      apply purges_sys (c := .write fd data) (holds_stable fd .write) (fun _ hs => hs)
        (fun newFile hOp => absurd hOp (hOther newFile))
      intro s choice u s' hs hServe
      rcases serve_write hServe with ⟨hFd, rfl⟩ | ⟨-, rfl⟩
      · exact hs
      · exact hs
    exact hWrite.bind fun _ => ih

theorem exclusiveToSharedLock_purges (hOther : ∀ newFile, op ≠ .updateAndPurge newFile) (fd : Nat) :
    Purges limits p op (fun _ => True) (exclusiveToSharedLock fd) fun _ _ => True := by
  have hLock : Purges limits p op (fun _ => True) (Program.sys (.setLockWait fd .read)) fun _ _ => True :=
    purges_sys (c := .setLockWait fd .read) true_stable (fun _ _ => trivial)
      (fun newFile hOp => absurd hOp (hOther newFile)) fun _ _ _ _ _ _ => trivial
  exact hLock.bind fun _ => failUnless_purges fun _ _ _ => trivial

theorem writeInfo_purges (size : Nat) (hStable : (purgeContract Pid).Stable p P) :
    Purges limits p op P (Program.sys (.writeInfo size)) fun _ _ => True :=
  purges_sys (c := .writeInfo size) hStable (fun _ _ => trivial) (fun _ _ _ _ => trivial) fun _ _ _ _ _ _ => trivial

theorem readInfo_purges : Purges limits p op (fun _ => True) (Program.sys .readInfo) fun _ _ => True :=
  purges_sys (c := .readInfo) true_stable (fun _ _ => trivial) (fun _ _ _ _ => trivial) fun _ _ _ _ _ _ => trivial

theorem stat_purges (name : Word) (hStable : (purgeContract Pid).Stable p P) :
    Purges limits p op P (Program.sys (.stat name)) fun _ => P := by
  apply purges_sys (c := .stat name) hStable (fun _ _ => trivial) (fun _ _ _ _ => trivial)
  rintro s choice _ _ hs ⟨⟩
  exact hs

theorem updateCacheInfo_purges (target : Word) : Purges limits p op (fun _ => True)
    (updateCacheInfo target) fun _ _ => True := by
  apply unlockingCache_purges
  apply (lockCacheWrite_purges.conseq (fun _ _ _ => trivial) (fun _ _ _ _ => trivial) fun _ _ _ _ => trivial).bind
  intro _
  apply readInfo_purges.bind
  intro current
  apply (stat_purges target true_stable).bind
  intro r
  cases r with
  | none => exact Contract.Meets.throw fun _ _ _ => trivial
  | some r =>
    apply (writeInfo_purges _ true_stable).bind
    intro _
    apply (unlockCache_true true_stable).bind
    exact fun _ => Contract.Meets.ret fun _ _ _ => trivial

theorem getCacheSize_purges : Purges limits p op (fun _ => True) getCacheSize fun _ _ => True := by
  apply unlockingCache_purges
  apply lockCacheRead_purges.bind
  intro _
  apply readInfo_purges.bind
  intro current
  apply (unlockCache_true true_stable).bind
  exact fun _ => Contract.Meets.ret fun _ _ _ => trivial

/-- The file of a name, as long as the info file is locked. -/
abbrev Named (p : Pid) (name : Word) (fd : Nat) (s : CacheDisk Pid) : Prop :=
  s.infoLocks.Holds p .write ∧ (name, fd) ∈ s.entries

theorem openFile_purges (name : Word) (φ : List (Word × Nat) → Prop) :
    Purges limits p op (fun s => s.infoLocks.Holds p .write ∧ φ s.entries) (Program.sys (.openFile name))
      fun r s => (s.infoLocks.Holds p .write ∧ φ s.entries) ∧ ∀ fd, r = some fd → (name, fd) ∈ s.entries := by
  apply purges_sys (c := .openFile name) (entries_stable φ) (fun _ _ => trivial) (fun _ _ _ _ => trivial)
  rintro s choice _ _ hs ⟨⟩
  exact ⟨hs, fun fd hFind => find_iff.mp hFind⟩

theorem purgeFile_purges (hOther : ∀ newFile, op ≠ .updateAndPurge newFile) (file : Word) :
    Purges limits p op (fun _ => True) (purgeFile file) fun _ _ => True := by
  have hNamed (fd : Nat) : (purgeContract Pid).Stable p (Named p file fd) :=
      entries_stable fun entries => (file, fd) ∈ entries
  have hOwned (fd : Nat) : (purgeContract Pid).Stable p fun s => Named p file fd s ∧ (s.locks fd).Holds p .write :=
    (hNamed fd).and (holds_stable fd .write)
  have hLock : Purges limits p op (fun s => s.infoLocks.Holds p .write) (getLock file .write)
      fun r s => ∀ fd, r = some fd → Named p file fd s ∧ (s.locks fd).Holds p .write := by
    apply ((openFile_purges file fun _ => True).weaken fun s _ hs => ⟨hs, trivial⟩).bind
    intro r
    cases r with
    | none => exact Contract.Meets.ret fun _ _ _ => by rintro _ ⟨⟩
    | some fd =>
      have hFile : Purges limits p op (Named p file fd) (lockFile fd .write) fun _ s => Named p file fd s ∧ _ :=
        lockFile_purges hOther (hNamed fd) fun _ _ _ hs => hs
      apply (hFile.weaken fun s _ hs => ⟨hs.1.1, hs.2 fd rfl⟩).bind
      intro _
      apply Contract.Meets.ret
      rintro s - hs _ ⟨⟩
      exact hs
  apply unlockingCache_purges
  apply lockCacheWrite_purges.bind
  intro _
  apply hLock.bind
  intro r
  cases r with
  | none => exact (unlockCache_true true_stable).weaken fun _ _ _ => trivial
  | some fd =>
    apply ((stat_purges file (hOwned fd)).weaken fun s _ hs => hs fd rfl).bind
    intro r
    have hUnlink : Purges limits p op (fun s => Named p file fd s ∧ (s.locks fd).Holds p .write)
        (Program.sys (.unlink file))
        fun _ _ => True := by
      apply purges_sys (c := .unlink file) (hOwned fd) _ (fun newFile hOp => absurd hOp (hOther newFile))
        (fun _ _ _ _ _ _ => trivial)
      rintro s ⟨⟨hInfo, hEntry⟩, hHolds⟩
      refine ⟨hInfo, fun i hi => ?_⟩
      rw [entry_inode hi hEntry]
      exact hHolds
    apply hUnlink.bind
    intro ok
    apply (failUnless_purges fun _ _ hs => hs).bind
    intro _
    have hClose : Purges limits p op (fun _ => True) (Program.sys (.close fd)) fun _ _ => True :=
      purges_sys (c := .close fd) true_stable (fun _ _ => trivial) (fun newFile hOp => absurd hOp (hOther newFile))
        fun _ _ _ _ _ _ => trivial
    apply hClose.bind
    intro _
    apply getCacheSize_purges.bind
    intro size
    apply (writeInfo_purges _ true_stable).bind
    exact fun _ => unlockCache_true true_stable

/-! ## A purge -/

/-- What a purge for a new file leaves. -/
structure Purge.Right (limits : CacheLimits) (newFile : Word) (done : Purge) : Prop where
  size : done.size = keptSize done.contents done.removed % ulonglong
  enough : (done.removed = [] ∧ done.size ≤ limits.maxSize) ∨ done.size ≤ limits.targetSize ∨
    ∀ e ∈ done.contents, e.name ∈ done.removed ∨ e.name = newFile ∨ e.name ∈ done.inUse

/-- The info file is locked, and some names are there. -/
abbrev Listed (p : Pid) (names : List Word) (s : CacheDisk Pid) : Prop :=
  s.infoLocks.Holds p .write ∧ ∀ n ∈ names, ∃ i, (n, i) ∈ s.entries

omit [DecidableEq Pid] in
theorem listed_stable (names : List Word) : (purgeContract Pid).Stable p (Listed p names) :=
  entries_stable fun entries => ∀ n ∈ names, ∃ i, (n, i) ∈ entries

theorem collectFiles_purges (files : List Word) (currentSize : Nat) (contents : List CacheEntry)
    (hSize : currentSize = (contents.map CacheEntry.size).sum % ulonglong)
    (hNodup : (contents.map CacheEntry.name ++ files).Nodup) :
    Purges limits p op (Listed p (contents.map CacheEntry.name ++ files)) (collectFiles files currentSize contents)
      fun r s => (r.1 = (r.2.map CacheEntry.size).sum % ulonglong ∧ (r.2.map CacheEntry.name).Nodup) ∧
        Listed p (r.2.map CacheEntry.name) s := by
  induction files generalizing currentSize contents with
  | nil =>
    rw [List.append_nil] at hNodup ⊢
    exact Contract.Meets.ret fun s _ hs => ⟨⟨hSize, hNodup⟩, hs⟩
  | cons file files ih =>
    apply (stat_purges file (listed_stable _)).bind
    intro r
    cases r with
    | none =>
      have hSub : (contents.map CacheEntry.name ++ files).Sublist
          (contents.map CacheEntry.name ++ file :: files) := by simp
      have hRest := ih currentSize contents hSize (hNodup.sublist hSub)
      exact hRest.weaken fun s _ hs => ⟨hs.1, fun n hn => hs.2 n (hSub.subset hn)⟩
    | some r =>
      have hNames : (contents ++ [(⟨file, r.1, r.2⟩ : CacheEntry)]).map CacheEntry.name ++
          files = contents.map CacheEntry.name ++ file :: files := by
        simp
      have hRest := ih ((currentSize + r.1) % ulonglong) (contents ++ [⟨file, r.1, r.2⟩]) (by simp [hSize])
          (by rw [hNames]; exact hNodup)
      rw [hNames] at hRest
      exact hRest

theorem getExclusiveLockNB_purges {newFile name : Word} (hNew : name ≠ newFile) (rest : List Word) :
    Purges limits p (.updateAndPurge newFile) (Listed p (name :: rest)) (getExclusiveLockNB name)
      fun r s => Listed p (name :: rest) s ∧ ∀ fd, r = some fd → (name, fd) ∈ s.entries ∧
        (s.locks fd).Holds p .write := by
  have hSpared : ∀ (s : CacheDisk Pid) fd, (name, fd) ∈ s.entries → ∀ i, (newFile, i) ∈ s.entries → fd ≠ i := by
    rintro s fd hEntry i hi rfl
    exact hNew (entry_name hEntry hi)
  apply (openFile_purges name fun entries => ∀ n ∈ name :: rest, ∃ i, (n, i) ∈ entries).bind
  intro r
  cases r with
  | none => exact Contract.Meets.ret fun s _ hs => ⟨hs.1, by rintro _ ⟨⟩⟩
  | some fd =>
    have hStable : (purgeContract Pid).Stable p fun s => Listed p (name :: rest) s ∧ (name, fd) ∈ s.entries := by
      have hBoth := (listed_stable (p := p) (name :: rest)).and
          (entries_stable (p := p) fun entries => (name, fd) ∈ entries)
      intro q s s' hNot hInv hInv' hSteps hs
      obtain ⟨hListed, hEntry⟩ := hBoth q s s' hNot hInv hInv' hSteps ⟨hs.1, hs.1.1, hs.2⟩
      exact ⟨hListed, hEntry.2⟩
    have hLock : Purges limits p (.updateAndPurge newFile) (fun s => Listed p (name :: rest) s ∧ (name, fd) ∈ s.entries)
        (Program.sys (.setLock fd .write))
        fun ok s => (Listed p (name :: rest) s ∧ (name, fd) ∈ s.entries) ∧
          (ok = true → (s.locks fd).Holds p .write) := by
      apply purges_sys (c := .setLock fd .write) hStable (fun _ _ => trivial)
      · rintro _ ⟨⟩ s hs
        exact ⟨⟨name, hs.2⟩, hSpared s fd hs.2⟩
      · intro s choice ok s' hs hServe
        rcases serve_setLock hServe with ⟨hFd, l, hAcquire, -, rfl⟩ | ⟨-, rfl, rfl⟩
        · refine ⟨hs, fun _ => ?_⟩
          rw [withLocks_self]
          exact Locks.acquire_own hAcquire
        · exact ⟨hs, by rintro ⟨⟩⟩
    apply (hLock.weaken fun s _ hs => ⟨hs.1, hs.2 fd rfl⟩).bind
    intro ok
    cases ok with
    | true =>
      apply Contract.Meets.ret
      rintro s - ⟨⟨hListed, hEntry⟩, hHolds⟩
      refine ⟨hListed, ?_⟩
      rintro _ ⟨⟩
      exact ⟨hEntry, hHolds rfl⟩
    | false =>
      have hClose : Purges limits p (.updateAndPurge newFile)
          (fun s => Listed p (name :: rest) s ∧ (name, fd) ∈ s.entries)
          (Program.sys (.close fd)) fun _ => Listed p (name :: rest) := by
        apply purges_sys (c := .close fd) hStable (fun _ _ => trivial)
        · rintro _ ⟨⟩ s hs
          exact hSpared s fd hs.2
        · intro s choice u s' hs hServe
          rcases serve_close hServe with ⟨hFd, rfl⟩ | ⟨-, rfl⟩
          · exact hs.1
          · exact hs.1
      apply (hClose.weaken fun s _ hs => hs.1).bind
      intro _
      apply Contract.Meets.ret
      exact fun s _ hs => ⟨hs, by rintro _ ⟨⟩⟩

/-- What a purge has done after some of its files. -/
structure Purging (newFile : Word) (visited entries : List CacheEntry) (done : Purge) : Prop where
  contents : done.contents = visited ++ entries
  nodup : (done.contents.map CacheEntry.name).Nodup
  size : done.size = keptSize done.contents done.removed % ulonglong
  seen : ∀ e ∈ visited, e.name ∈ done.removed ∨ e.name = newFile ∨ e.name ∈ done.inUse
  removed : ∀ n ∈ done.removed, n ∈ visited.map CacheEntry.name

namespace Purging

variable {newFile : Word} {visited entries : List CacheEntry} {entry : CacheEntry} {done : Purge}

theorem not_removed (h : Purging newFile visited (entry :: entries) done) : entry.name ∉ done.removed := by
  intro hMem
  have hNodup := h.nodup
  rw [h.contents, List.map_append, List.nodup_append] at hNodup
  exact hNodup.2.2 _ (h.removed _ hMem) _ List.mem_cons_self rfl

theorem next_not_mem (h : Purging newFile visited (entry :: entries) done) :
    entry.name ∉ entries.map CacheEntry.name := by
  have hNodup := h.nodup
  rw [h.contents, List.map_append, List.nodup_append, List.map_cons, List.nodup_cons] at hNodup
  exact hNodup.2.1.1

theorem spared (h : Purging newFile visited (entry :: entries) done) (hNew : entry.name = newFile) :
    Purging newFile (visited ++ [entry]) entries done where
  contents := by rw [h.contents, List.append_assoc, List.singleton_append]
  nodup := h.nodup
  size := h.size
  seen e he := by
    rcases List.mem_append.mp he with he | he
    · exact h.seen e he
    · rw [List.mem_singleton.mp he]
      exact .inr (.inl hNew)
  removed n hn := by
    rw [List.map_append]
    exact List.mem_append_left _ (h.removed n hn)

theorem skipped (h : Purging newFile visited (entry :: entries) done) :
    Purging newFile (visited ++ [entry]) entries { done with inUse := entry.name :: done.inUse } where
  contents := by rw [h.contents, List.append_assoc, List.singleton_append]
  nodup := h.nodup
  size := h.size
  seen e he := by
    rcases List.mem_append.mp he with he | he
    · rcases h.seen e he with hGone | hNew | hUse
      · exact .inl hGone
      · exact .inr (.inl hNew)
      · exact .inr (.inr (List.mem_cons_of_mem _ hUse))
    · rw [List.mem_singleton.mp he]
      exact .inr (.inr List.mem_cons_self)
  removed n hn := by
    rw [List.map_append]
    exact List.mem_append_left _ (h.removed n hn)

theorem unlinked (h : Purging newFile visited (entry :: entries) done) :
    Purging newFile (visited ++ [entry]) entries
      { done with size := minus done.size entry.size, removed := entry.name :: done.removed } where
  contents := by rw [h.contents, List.append_assoc, List.singleton_append]
  nodup := h.nodup
  size := by
    have hMem : entry ∈ done.contents := by rw [h.contents]; simp
    change minus done.size entry.size = _
    rw [h.size, keptSize_removed h.nodup hMem h.not_removed, minus_mod]
  seen e he := by
    rcases List.mem_append.mp he with he | he
    · rcases h.seen e he with hGone | hRest
      · exact .inl (List.mem_cons_of_mem _ hGone)
      · exact .inr hRest
    · rw [List.mem_singleton.mp he]
      exact .inl List.mem_cons_self
  removed n hn := by
    rw [List.map_append]
    rcases List.mem_cons.mp hn with rfl | hn
    · exact List.mem_append_right _ (by simp)
    · exact List.mem_append_left _ (h.removed n hn)

end Purging

theorem purgeFiles_purges {newFile : Word} (entries visited : List CacheEntry) (done : Purge)
    (h : Purging newFile visited entries done) :
    Purges limits p (.updateAndPurge newFile) (Listed p (entries.map CacheEntry.name))
      (purgeFiles limits newFile entries done)
      fun d _ => d.size = keptSize d.contents d.removed % ulonglong ∧ (d.size ≤ limits.targetSize ∨
        ∀ e ∈ d.contents, e.name ∈ d.removed ∨ e.name = newFile ∨ e.name ∈ d.inUse) := by
  induction entries generalizing visited done with
  | nil =>
    apply Contract.Meets.ret
    intro s _ _
    refine ⟨h.size, .inr ?_⟩
    rw [h.contents, List.append_nil]
    exact h.seen
  | cons entry entries ih =>
    rw [purgeFiles]
    split
    · split
      · rename_i hNew
        exact (ih _ _ (h.spared hNew)).weaken fun s _ hs => ⟨hs.1, fun n hn => hs.2 n (List.mem_cons_of_mem _ hn)⟩
      · rename_i hNew
        apply (getExclusiveLockNB_purges hNew (entries.map CacheEntry.name)).bind
        intro r
        cases r with
        | none => exact (ih _ _ h.skipped).weaken fun s _ hs =>
          ⟨hs.1.1, fun n hn => hs.1.2 n (List.mem_cons_of_mem _ hn)⟩
        | some fd =>
          -- The file is locked and has its name, until that is taken off.
          have hStable : (purgeContract Pid).Stable p fun s =>
              Listed p (entry.name :: entries.map CacheEntry.name) s ∧ (entry.name, fd) ∈ s.entries ∧
                (s.locks fd).Holds p .write := by
            intro q s s' hNot _ _ hSteps hs
            refine ⟨listed_stable _ q s s' hNot trivial trivial hSteps hs.1, ?_, Steps.holds hSteps hNot hs.2.2⟩
            rw [Steps.entries_eq hSteps hNot hs.1.1]
            exact hs.2.1
          have hGone : (purgeContract Pid).Stable p fun s =>
              Listed p (entries.map CacheEntry.name) s ∧ ∀ i, (newFile, i) ∈ s.entries → fd ≠ i := by
            intro q s s' hNot _ _ hSteps hs
            refine ⟨listed_stable _ q s s' hNot trivial trivial hSteps hs.1, ?_⟩
            rw [Steps.entries_eq hSteps hNot hs.1.1]
            exact hs.2
          have hUnlink : Purges limits p (.updateAndPurge newFile)
              (fun s => Listed p (entry.name :: entries.map CacheEntry.name) s ∧ (entry.name, fd) ∈ s.entries ∧
                (s.locks fd).Holds p .write)
              (Program.sys (.unlink entry.name))
              fun _ s => Listed p (entries.map CacheEntry.name) s ∧ ∀ i, (newFile, i) ∈ s.entries → fd ≠ i := by
            apply purges_sys (c := .unlink entry.name) hStable
            · rintro s ⟨hListed, hEntry, hHolds⟩
              refine ⟨hListed.1, fun i hi => ?_⟩
              rw [entry_inode hi hEntry]
              exact hHolds
            · rintro _ ⟨⟩ s hs
              exact hNew
            · rintro s choice ok s' ⟨hListed, hEntry, hHolds⟩ hServe
              rcases serve_unlink hServe with ⟨-, rfl⟩ | ⟨hNone, -, -⟩
              · refine ⟨⟨hListed.1, fun n hn => ?_⟩, ?_⟩
                · obtain ⟨i, hi⟩ := hListed.2 n (List.mem_cons_of_mem _ hn)
                  have hNe : n ≠ entry.name := fun hSame => h.next_not_mem (hSame ▸ hn)
                  exact ⟨i, List.mem_filter.mpr ⟨hi, by simpa using hNe⟩⟩
                · rintro i hi rfl
                  exact hNew (entry_name hEntry (List.mem_filter.mp hi).1)
              · exact absurd hEntry (find_none hNone fd)
          have hClose : Purges limits p (.updateAndPurge newFile)
              (fun s => Listed p (entries.map CacheEntry.name) s ∧ ∀ i, (newFile, i) ∈ s.entries → fd ≠ i)
              (Program.sys (.close fd)) fun _ => Listed p (entries.map CacheEntry.name) := by
            apply purges_sys (c := .close fd) hGone (fun _ _ => trivial)
            · rintro _ ⟨⟩ s hs
              exact hs.2
            · intro s choice u s' hs hServe
              rcases serve_close hServe with ⟨hFd, rfl⟩ | ⟨-, rfl⟩
              · exact hs.1
              · exact hs.1
          apply (hUnlink.weaken fun s _ hs => ⟨hs.1, hs.2 fd rfl⟩).bind
          intro ok
          apply (failUnless_purges fun _ s hs => hs).bind
          intro _
          apply hClose.bind
          exact fun _ => ih _ _ h.unlinked
    · rename_i hEnough
      apply Contract.Meets.ret
      intro s _ _
      exact ⟨h.size, .inl (Nat.le_of_not_lt hEnough)⟩

theorem purgeTooBig_purges {newFile : Word} {computedSize : Nat} {contents : List CacheEntry}
    (hSize : computedSize = (contents.map CacheEntry.size).sum % ulonglong)
    (hNodup : (contents.map CacheEntry.name).Nodup) :
    Purges limits p (.updateAndPurge newFile) (Listed p (contents.map CacheEntry.name))
      (purgeTooBig limits newFile computedSize contents) fun done _ => done.Right limits newFile ∧ True := by
  have hStart : Purging newFile [] contents ⟨contents, computedSize, [], []⟩ :=
    ⟨rfl, hNodup, by rw [keptSize_nil]; exact hSize, by rintro _ ⟨⟩, by rintro _ ⟨⟩⟩
  rw [purgeTooBig]
  split
  · apply (purgeFiles_purges contents [] _ hStart).conseq (fun _ _ hs => hs) _ (fun _ _ _ _ => trivial)
    exact fun d s _ hd => ⟨⟨hd.1, .inr hd.2⟩, trivial⟩
  · rename_i hSmall
    apply Contract.Meets.ret
    intro s _ _
    refine ⟨⟨hStart.size, .inl ⟨rfl, ?_⟩⟩, trivial⟩
    simpa [CacheLimits.cacheTooBig] using hSmall

theorem updateAndPurge_purges (newFile : Word) :
    Purges limits p (.updateAndPurge newFile) (fun _ => True) (updateAndPurge limits newFile)
      fun done _ => done.Right limits newFile := by
  have hList : Purges limits p (.updateAndPurge newFile) (fun s => s.infoLocks.Holds p .write) (Program.sys .readdir)
      fun files s => files.Nodup ∧ Listed p files s := by
    apply purges_sys (c := .readdir) (holdsInfo_stable .write) (fun _ _ => trivial) (fun _ _ _ _ => trivial)
    rintro s choice _ _ hs ⟨⟩
    refine ⟨s.names, hs, fun n hn => ?_⟩
    obtain ⟨⟨k, i⟩, he, rfl⟩ := List.mem_map.mp hn
    exact ⟨i, he⟩
  apply unlockingCache_purges
  apply lockCacheWrite_purges.bind
  intro _
  have hCollect : Purges limits p (.updateAndPurge newFile) (fun s => s.infoLocks.Holds p .write) collectCacheDirInfo
      fun r s => (r.1 = (r.2.map CacheEntry.size).sum % ulonglong ∧ (r.2.map CacheEntry.name).Nodup) ∧
        Listed p (r.2.map CacheEntry.name) s := by
    apply hList.bind
    intro files
    apply Contract.Meets.of_fact
    intro hNodup
    apply (collectFiles_purges files 0 [] rfl hNodup).bind
    intro r
    apply Contract.Meets.ret
    rintro s - ⟨⟨hSize, hNames⟩, hListed⟩
    have hPerm := List.perm_insertionSort (fun e₁ e₂ : CacheEntry => e₁.time ≤ e₂.time) r.2
    refine ⟨⟨?_, ?_⟩, hListed.1, ?_⟩
    · rw [hSize]
      exact congrArg (· % ulonglong) (hPerm.map CacheEntry.size).sum_nat.symm
    · exact (hPerm.map CacheEntry.name).nodup_iff.mpr hNames
    · intro n hn
      exact hListed.2 n ((hPerm.map CacheEntry.name).mem_iff.mp hn)
  apply hCollect.bind
  rintro ⟨computed, contents⟩
  apply Contract.Meets.of_fact
  rintro ⟨hSize, hNodup⟩
  apply (purgeTooBig_purges hSize hNodup).bind
  intro done
  apply Contract.Meets.of_fact
  intro hDone
  apply (writeInfo_purges done.size true_stable).bind
  intro _
  apply (unlockCache_true true_stable).bind
  exact fun _ => Contract.Meets.ret fun _ _ _ => hDone

/-! ## All processes -/

def purgePost (limits : CacheLimits) (_ : Pid) (op : CacheOp) (r : Option Purge) (_ : CacheDisk Pid) : Prop :=
  ∀ newFile, op = .updateAndPurge newFile → ∃ done, r = some done ∧ done.Right limits newFile

theorem program_purges (op : CacheOp) :
    Purges limits p op (fun _ => True) (op.program limits) fun r s => purgePost limits p op r s := by
  have hNone (hOther : ∀ newFile, op ≠ .updateAndPurge newFile) (s : CacheDisk Pid) : purgePost limits p op none s :=
    fun newFile hOp => absurd hOp (hOther newFile)
  cases op with
  | create target data =>
    have hOther : ∀ newFile, CacheOp.create target data ≠ .updateAndPurge newFile := by rintro _ ⟨⟩
    have hCreate : Purges limits p (.create target data) (fun _ => True) (create target data) fun _ _ => True := by
      apply (createAndLock_purges hOther target).bind
      intro r
      cases r with
      | none => exact Contract.Meets.ret fun _ _ _ => trivial
      | some fd =>
        apply ((writeAll_purges hOther fd data).weaken fun s _ hs => hs fd rfl).bind
        intro _
        apply (exclusiveToSharedLock_purges hOther fd).bind
        intro _
        apply (updateCacheInfo_purges target).bind
        exact fun _ => Contract.Meets.ret fun _ _ _ => trivial
    exact hCreate.bind fun _ => Contract.Meets.ret fun s _ _ => hNone hOther s
  | getReadLock target =>
    have hOther : ∀ newFile, CacheOp.getReadLock target ≠ .updateAndPurge newFile := by rintro _ ⟨⟩
    exact (getReadLock_purges hOther target).bind fun _ => Contract.Meets.ret fun s _ _ => hNone hOther s
  | purgeFile file =>
    have hOther : ∀ newFile, CacheOp.purgeFile file ≠ .updateAndPurge newFile := by rintro _ ⟨⟩
    exact (purgeFile_purges hOther file).bind fun _ => Contract.Meets.ret fun s _ _ => hNone hOther s
  | updateAndPurge newFile =>
    apply (updateAndPurge_purges newFile).bind
    intro done
    apply Contract.Meets.ret
    rintro s - hDone _ ⟨⟩
    exact ⟨done, rfl, hDone⟩
  | getCacheSize =>
    have hOther : ∀ newFile, CacheOp.getCacheSize ≠ .updateAndPurge newFile := by rintro _ ⟨⟩
    exact getCacheSize_purges.bind fun _ => Contract.Meets.ret fun s _ _ => hNone hOther s
  | unlockAndClose fd =>
    have hOther : ∀ newFile, CacheOp.unlockAndClose fd ≠ .updateAndPurge newFile := by rintro _ ⟨⟩
    have hClose : Purges limits p (.unlockAndClose fd) (fun _ => True) (unlockAndClose fd) fun _ _ => True :=
      purges_sys (c := .close fd) true_stable (fun _ _ => trivial) (fun newFile hOp => absurd hOp (hOther newFile))
        fun _ _ _ _ _ _ => trivial
    exact hClose.bind fun _ => Contract.Meets.ret fun s _ _ => hNone hOther s

/-- Processes on one directory, from any state of it. -/
abbrev CacheWorld (Pid : Type) := World Pid (CacheDisk Pid) CacheOp Sys (Option Purge)

def CacheReached (limits : CacheLimits) (w : CacheWorld Pid) : Prop :=
  (cacheMachine Pid limits).Reached (fun w => ∀ p, w.proc p = none) (fun _ _ => True) w

theorem purges_kept : Contract.Kept (purgeContract Pid) (cacheMachine Pid limits) (fun _ _ => True) (fun _ _ => True)
    (purgePost limits) where
  idle_stable _ := true_stable
  post_stable _ _ _ := fun _ _ _ _ _ _ _ h => h
  post_idle _ _ _ _ _ := trivial
  meets p op := program_purges op
  cond := by
    intros
    trivial

theorem reached_holds {w : CacheWorld Pid} (h : CacheReached limits w) :
    (purgeContract Pid).Holds (cacheMachine Pid limits) (fun _ _ => True) (purgePost limits) w w.shared := by
  have hStart : ∀ w : CacheWorld Pid, (∀ p, w.proc p = none) →
      ∃ s, (purgeContract Pid).Holds (cacheMachine Pid limits) (fun _ _ => True) (purgePost limits) w s :=
    fun w hw => ⟨w.shared, rfl, trivial, fun p => by rw [hw p]; trivial⟩
  obtain ⟨s, hs⟩ := purges_kept.reached (fun p s => Steps.refl p s) hStart h
  have hReal : s = w.shared := hs.real
  rwa [hReal] at hs

theorem reached_link {w : CacheWorld Pid} (h : CacheReached limits w) {e : Turn Pid CacheOp Choice} {c : Sys β}
    {k : β → Proc (Option Purge)} (hCurrent : (cacheMachine Pid limits).current w e = (op, .call c k)) :
    w.shared.Proper e.pid c ∧ ∀ newFile, op = .updateAndPurge newFile → PurgeCall newFile w.shared c := by
  have hSafe := (reached_holds h).current purges_kept e
  rw [hCurrent] at hSafe
  obtain ⟨P, -, hP, hNext⟩ := hSafe
  exact (hNext w.shared trivial hP).1

/-- A purge's call leaves the new file its name and its locks. -/
theorem PurgeCall.keeps {newFile : Word} {s s' : CacheDisk Pid} {c : Sys β} (h : PurgeCall newFile s c)
    {choice : Choice} {b : β}
    (hServe : serve p choice c s = some (b, s')) {i : Nat} (hi : (newFile, i) ∈ s.entries) :
    (newFile, i) ∈ s'.entries ∧ s'.locks i = s.locks i := by
  cases c with
  | setLockInfo type =>
    rcases serve_setLockInfo hServe with ⟨l, -, -, rfl⟩ | ⟨-, -, rfl⟩
    · exact ⟨hi, rfl⟩
    · exact ⟨hi, rfl⟩
  | setLock fd type =>
    rcases serve_setLock hServe with ⟨hFd, l, -, -, rfl⟩ | ⟨-, -, rfl⟩
    · exact ⟨hi, withLocks_of_ne (h.2 i hi).symm⟩
    · exact ⟨hi, rfl⟩
  | close fd =>
    rcases serve_close hServe with ⟨hFd, rfl⟩ | ⟨-, rfl⟩
    · exact ⟨hi, withLocks_of_ne (h i hi).symm⟩
    · exact ⟨hi, rfl⟩
  | unlink name =>
    rcases serve_unlink hServe with ⟨-, rfl⟩ | ⟨-, -, rfl⟩
    · exact ⟨List.mem_filter.mpr ⟨hi, by simpa using (Ne.symm h)⟩, rfl⟩
    · exact ⟨hi, rfl⟩
  | createFile name => cases h
  | setLockWait fd type => cases h
  | write fd data => cases h
  | unlockInfo | readInfo | writeInfo size | openFile name | stat name | readdir =>
    cases hServe
    exact ⟨hi, rfl⟩

/-- What a purge for a new file does in a world, and what it leaves. -/
structure PurgeSpares (limits : CacheLimits) (w : CacheWorld Pid) (p : Pid) (newFile : Word) : Prop where
  /-- No file goes that another process has locked. -/
  unlinks : ∀ name k, w.proc p = some (.updateAndPurge newFile, .call (.unlink name) k) →
    name ≠ newFile ∧ ∀ i, (name, i) ∈ w.shared.entries → ∀ q t, q ≠ p → ¬ (w.shared.locks i).Holds q t
  /-- No step changes a lock of another process, or of the new file. -/
  locks : ∀ (e : Turn Pid CacheOp Choice) w', e.pid = p → ((cacheMachine Pid limits).current w e).1 =
    .updateAndPurge newFile →
    (cacheMachine Pid limits).step w e = some w' →
      (∀ i q t, q ≠ p → ((w'.shared.locks i).Holds q t ↔ (w.shared.locks i).Holds q t)) ∧
        ∀ i, (newFile, i) ∈ w.shared.entries → (newFile, i) ∈ w'.shared.entries ∧ w'.shared.locks i = w.shared.locks i
  /-- What is taken for in use is locked by another process. -/
  probes : ∀ fd k choice s, w.proc p = some (.updateAndPurge newFile, .call (.setLock fd .write) k) →
    serve p choice (.setLock fd .write) w.shared = some (false, s) → ∃ q t, q ≠ p ∧ (w.shared.locks fd).Holds q t
  returns : ∀ r, w.proc p = some (.updateAndPurge newFile, .ret r) → ∃ done, r = some done ∧ done.Right limits newFile

end

/-! ## Two processes -/

/-- The files `a`, `b` and `c` with so many bytes. -/
def threeFiles (a b c : Nat) : CacheDisk Bool where
  entries := [("a".toList, 0), ("b".toList, 1), ("c".toList, 2)]
  content i := if i = 0 then List.replicate a 0 else if i = 1 then List.replicate b 0 else if i =
    2 then List.replicate c 0 else []
  locks _ := .none
  next := 3
  info := a + b + c
  infoLocks := .none
  names := by decide
  inodes := by decide
  born := by decide
  unborn i hi := ⟨by rw [if_neg (by omega), if_neg (by omega), if_neg (by omega)], rfl⟩

def fiftyOfHundred : CacheLimits := ⟨100, 50⟩

def turns (p : Bool) (op : CacheOp) (n : Nat) : List (Turn Bool CacheOp Choice) := List.replicate n ⟨p, op, ⟨false, 0⟩⟩

def worldOf (disk : CacheDisk Bool) : CacheWorld Bool := ⟨disk, fun _ => none⟩

theorem cacheReached_run {limits : CacheLimits} (disk : CacheDisk Bool) (es : List (Turn Bool CacheOp Choice))
    {w : CacheWorld Bool}
    (h : (cacheMachine Bool limits).run (fun _ _ => True) (worldOf disk) es = some w) : CacheReached limits w :=
  Machine.Reached.run (.start fun _ => rfl) h

def toUnlink : List (Turn Bool CacheOp Choice) :=
  turns false (.getReadLock "a".toList) 4 ++ turns true (.updateAndPurge "c".toList) 10

end Libdap.Cache
