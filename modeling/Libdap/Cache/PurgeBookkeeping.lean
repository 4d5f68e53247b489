import Libdap.Cache.Bookkeeping

/-! # How a purge keeps the books

`purge_file` subtracts the size of the file from the total, and `update_and_purge` computes the total anew. For
both the process is at work on the size, and the figures of the others do not change meanwhile.
-/

namespace Libdap.Cache
open Core Constraint CacheDisk Accounts
set_option autoImplicit false

namespace Accounts
variable {Pid : Type}

/-- The files and what is counted of each. -/
noncomputable def listing (a : Accounts Pid) : List (Word × Nat × Nat) :=
  a.disk.entries.map fun e => (e.1, e.2, a.counted e.2)

theorem listing_total (a : Accounts Pid) : (a.listing.map fun d => d.2.2).sum = a.total := by
  rw [listing, List.map_map]
  rfl

theorem mem_listing {a : Accounts Pid} {name : Word} {i n : Nat} :
    (name, i, n) ∈ a.listing ↔ (name, i) ∈ a.disk.entries ∧ n = a.counted i := by
  rw [listing, List.mem_map]
  constructor
  · rintro ⟨e, he, ⟨⟩⟩
    exact ⟨he, rfl⟩
  · rintro ⟨he, rfl⟩
    exact ⟨(name, i), he, rfl⟩

/-- At work on the size, with the info file locked and figures that do not change meanwhile. -/
structure Working (p : Pid) (φ : Nat → List (Word × Nat × Nat) → Prop) (a : Accounts Pid) : Prop where
  made : a.made p = none
  busy : a.busy = some p
  locked : a.disk.infoLocks.Holds p .write
  figures : φ a.disk.info a.listing

/-- The recorded size is right. -/
def Right (info : Nat) (files : List (Word × Nat × Nat)) : Prop := info = (files.map fun d => d.2.2).sum

theorem Working.settled {p : Pid} {φ : Nat → List (Word × Nat × Nat) → Prop} {a : Accounts Pid} (h : Working p φ a)
    (hRight : ∀ info files, φ info files → Right info files) : Settled p a :=
  ⟨h.made, fun _ => ⟨h.locked, (hRight _ _ h.figures).trans (listing_total a)⟩⟩

theorem Correct.working {p : Pid} {a : Accounts Pid} (h : Correct p none a) : Working p Right a :=
  ⟨h.made, h.busy, h.locked, h.right.trans (listing_total a).symm⟩

theorem Leaves.listing_eq {p q : Pid} {a a' : Accounts Pid} (h : Leaves q a a') (hNot : q ≠ p) (hBusy : a.busy = some p)
    (hLocked : a.disk.infoLocks.Holds p .write) : a'.listing = a.listing := by
  rw [listing, listing, h.steps.entries_eq hNot hLocked]
  apply List.map_congr_left
  intro e he
  rw [h.counted_eq hNot hBusy he]

theorem Leaves.working {p q : Pid} {a a' : Accounts Pid} (h : Leaves q a a') (hNot : q ≠ p)
    {φ : Nat → List (Word × Nat × Nat) → Prop} (hWorking : Working p φ a) : Working p φ a' where
  made := (h.made_eq hNot).trans hWorking.made
  busy := h.busy_eq hNot hWorking.busy
  locked := h.steps.holdsInfo hNot hWorking.locked
  figures := by
    rw [(h.figures hNot hWorking.busy).2, h.listing_eq hNot hWorking.busy hWorking.locked]
    exact hWorking.figures

theorem Quiet.listing {a : Accounts Pid} {disk : CacheDisk Pid} {busy : Option Pid} (h : Quiet a.disk disk) :
    (a.next disk busy).listing = a.listing := by
  rw [Accounts.listing, Accounts.listing]
  change disk.entries.map _ = _
  rw [h.entries]
  apply List.map_congr_left
  intro e _
  rw [next_counted (congrFun h.content e.2)]

end Accounts

section
variable {Pid : Type} [DecidableEq Pid] {limits : CacheLimits} {p : Pid} {op : CacheOp} {E : Accounts Pid → Prop}
  {α β : Type}
  {φ : Nat → List (Word × Nat × Nat) → Prop}

theorem working_stable (φ : Nat → List (Word × Nat × Nat) → Prop) : (accountContract Pid).Stable p (Working p φ) :=
  stable_of fun _ _ _ hNot _ h => h.working hNot

/-- A quiet call while at work. -/
theorem working_quiet {c : Sys β} (hCall : QuietCall c) {Q : β → Accounts Pid → Prop}
    (hLocked : ∀ (a : Accounts Pid) choice b s, serve p choice c a.disk = some (b, s) →
      s.infoLocks = a.disk.infoLocks)
    (hStep : ∀ a choice b s, Books a → Working p φ a → serve p choice c a.disk = some (b, s) → AccountCond p op a c →
      Working p φ (a.next s a.busy) → Q b (a.next s a.busy)) :
    Accounted limits p op (Working p φ) (Program.sys c) Q E := by
  apply accounted_quiet hCall (working_stable φ) (fun _ h => h.made) (fun _ h _ => ⟨_, h.locked⟩)
  intro a choice b s hBooks h hServe hCond
  have hQuiet := serve_quiet hCall hServe
  refine hStep a choice b s hBooks h hServe hCond ⟨h.made, h.busy, ?_, ?_⟩
  · change s.infoLocks.Holds p .write
    rw [hLocked a choice b s hServe]
    exact h.locked
  · rw [hQuiet.listing]
    change φ s.info a.listing
    rw [hQuiet.info]
    exact h.figures

theorem close_working (fd : Nat) : Accounted limits p op (Working p φ) (Program.sys (.close fd))
    (fun _ => Working p φ) E := by
  apply working_quiet (c := .close fd) trivial
  · intro a choice b s hServe
    rcases serve_close hServe with ⟨-, rfl⟩ | ⟨-, rfl⟩ <;> rfl
  · exact fun _ _ _ _ _ _ _ _ h => h

/-- The size that is recorded in the end. -/
theorem writeInfo_accounted {P : Accounts Pid → Prop} {size : Nat} (hStable : (accountContract Pid).Stable p P)
    (hMade : ∀ a, P a → a.made p = none) (hBusy : ∀ a, P a → a.busy = some p)
    (hSize : ∀ a, Books a → P a → size = a.total) :
    Accounted limits p op P (Program.sys (.writeInfo size)) (fun _ => Idle p) E := by
  apply accounted_sys (c := .writeInfo size) hStable
  · exact fun a _ h => ⟨trivial, nothing_made (hMade a h), fun _ => .inr trivial⟩
  · rintro a choice _ _ hBooks h ⟨⟩ _
    rw [hSize a hBooks h]
    exact ⟨_, rfl, hBooks.corrected (hBusy a h), hMade a h, (Option.some_ne_none p).symm⟩

/-! ## A file that is removed -/

/-- With a file locked for the process alone. -/
structure Removing (p : Pid) (φ : Nat → List (Word × Nat × Nat) → Prop) (fd : Nat) (a : Accounts Pid) : Prop where
  working : Working p φ a
  locked : (a.disk.locks fd).Holds p .write

theorem removing_stable (fd : Nat) : (accountContract Pid).Stable p (Removing p φ fd) :=
  stable_of fun _ _ _ hNot _ h hRemoving => ⟨h.working hNot hRemoving.working, h.steps.holds hNot hRemoving.locked⟩

/-- Together with the file that has the name. -/
def WithFile (φ : Nat → List (Word × Nat × Nat) → Prop) (name : Word) (fd : Nat) (info : Nat)
    (files : List (Word × Nat × Nat)) :
    Prop :=
  φ info files ∧ ∃ n, (name, fd, n) ∈ files

/-- Without the file of the name, which has the size. -/
structure Without (before : List (Word × Nat × Nat)) (name : Word) (n : Nat)
    (files : List (Word × Nat × Nat)) : Prop where
  named : ∃ fd, (name, fd, n) ∈ before
  unique : ∀ d ∈ before, d.1 = name → d.2.2 = n
  sum : (files.map fun d => d.2.2).sum + n = (before.map fun d => d.2.2).sum
  subset : files ⊆ before

theorem openFile_working (name : Word) : Accounted limits p op (Working p φ) (Program.sys (.openFile name))
    (fun fd a => match fd with
      | none => Working p φ a
      | some i => Working p (WithFile φ name i) a) E := by
  apply working_quiet (c := .openFile name) trivial
  · rintro a choice _ _ ⟨⟩
    rfl
  · rintro a choice _ _ hBooks h ⟨⟩ - hWorking
    cases hFind : a.disk.find name with
    | none => exact hWorking
    | some i => exact ⟨h.made, h.busy, h.locked, h.figures, a.counted i, mem_listing.mpr ⟨find_iff.mp hFind, rfl⟩⟩

theorem tryLock_working {c : Sys Bool} {name : Word} {fd : Nat} (hCall : QuietCall c)
    (hServe : ∀ (s s' : CacheDisk Pid) choice ok, serve p choice c s = some (ok, s') →
      (∃ hFd l, (s.locks fd).acquire p .write = some l ∧ ok = true ∧ s' = s.withLocks fd l hFd) ∨
      (ok = false ∧ s' = s)) :
    Accounted limits p op (Working p (WithFile φ name fd)) (Program.sys c)
      (fun ok a => if ok = true then Removing p (WithFile φ name fd) fd a else Working p (WithFile φ name fd) a) E := by
  apply working_quiet hCall
  · intro a choice ok s h
    rcases hServe a.disk s choice ok h with ⟨hFd, l, -, -, rfl⟩ | ⟨-, rfl⟩ <;> rfl
  · intro a choice ok s hBooks h hs _ hWorking
    rcases hServe a.disk s choice ok hs with ⟨hFd, l, hLock, rfl, rfl⟩ | ⟨rfl, rfl⟩
    · rw [if_pos rfl]
      refine ⟨hWorking, ?_⟩
      change Locks.Holds ((a.disk.withLocks fd l hFd).locks fd) p .write
      rw [withLocks_self]
      exact Locks.acquire_own hLock
    · exact hWorking

omit [DecidableEq Pid] in
/-- A file that a process at work has for itself is counted with its size. -/
theorem Removing.counted {name : Word} {fd : Nat} {a : Accounts Pid} (h : Removing p (WithFile φ name fd) fd a)
    (hBooks : Books a) :
    a.counted fd = (a.disk.content fd).length := by
  apply counted_recorded
  rintro ⟨q, t, hq⟩
  have hSame : q = p := by
    rcases (hBooks.named q t fd hq).2 with ⟨u, hu⟩ | hOther
    · exact h.locked.alone hu
    · exact h.working.locked.alone hOther
  rw [hSame, h.working.made] at hq
  cases hq

theorem unlink_removing {name : Word} {fd : Nat} :
    Accounted limits p op (Removing p (WithFile φ name fd) fd) (Program.sys (.unlink name))
      (fun ok a => ok = true ∧ Working p (fun info files => ∃ before n, φ info before ∧ Without before name n files) a)
        E := by
  apply accounted_sys (c := .unlink name) (removing_stable fd)
  · intro a _ h
    obtain ⟨-, n, hMem⟩ := h.working.figures
    refine ⟨⟨h.working.locked, ?_⟩, nothing_made h.working.made, fun _ => .inl ⟨_, h.working.locked⟩⟩
    intro i hi
    rw [entry_inode hi (mem_listing.mp hMem).1]
    exact h.locked
  · intro a choice ok s hBooks h hServe _
    obtain ⟨hφ, n, hMem⟩ := h.working.figures
    obtain ⟨hEntry, hn⟩ := mem_listing.mp hMem
    rcases serve_unlink hServe with ⟨rfl, rfl⟩ | ⟨hNone, -, -⟩
    · have hSteps : Steps p a.disk (a.disk.without name) := by
        refine serve_steps (c := .unlink name) ⟨h.working.locked, ?_⟩ hServe
        intro i hi
        rw [entry_inode hi hEntry]
        exact h.locked
      obtain ⟨hBooks', hLeaves, hTotal, hCounted⟩ :=
        hBooks.removed hEntry h.working.locked h.locked h.working.made h.working.busy hSteps
      refine ⟨_, rfl, ⟨hBooks', hLeaves⟩, rfl, h.working.made, h.working.busy, h.working.locked, a.listing, n, hφ,
        ⟨fd, hMem⟩, ?_, ?_, ?_⟩
      · rintro ⟨_, i, size⟩ hd rfl
        obtain ⟨hIn, hSize⟩ := mem_listing.mp hd
        rw [hSize, hn, entry_inode hIn hEntry]
      · rw [listing_total, listing_total, hn, hCounted]
        exact hTotal
      · rintro ⟨other, i, size⟩ hd
        obtain ⟨hIn, hSize⟩ := mem_listing.mp hd
        exact mem_listing.mpr ⟨(List.mem_filter.mp hIn).1, hSize⟩
    · exact absurd hEntry (find_none hNone fd)

/-! ## `purge_file` -/

theorem getLock_working (name : Word) : Accounted limits p op (Working p Right) (getLock name .write)
    (fun fd a => match fd with
      | none => Working p Right a
      | some i => Removing p (WithFile Right name i) i a) (Settled p) := by
  apply (openFile_working name).bind
  intro fd
  cases fd with
  | none => exact Contract.Meets.ret fun _ _ h => h
  | some i =>
    have hLock : Accounted limits p op (Working p (WithFile Right name i)) (lockFile i .write)
        (fun _ => Removing p (WithFile Right name i) i) (Settled p) := by
      refine (tryLock_working (c := .setLockWait i .write) trivial ?_).bind ?_
      · intro s s' choice ok hServe
        rcases serve_setLockWait hServe with hTaken | ⟨-, hFail⟩
        · exact .inl hTaken
        · exact .inr hFail
      · intro ok
        cases ok with
        | true => exact Contract.Meets.ret fun _ _ h => h
        | false =>
          apply (close_working i).bind
          exact fun _ => Contract.Meets.throw fun _ _ h => h.settled fun _ _ hWithFile => hWithFile.1
    apply hLock.bind
    exact fun _ => Contract.Meets.ret fun _ _ h => h

/-- The size that `purge_file` sees is the one that is counted. -/
theorem stat_removing {name : Word} {fd : Nat} :
    Accounted limits p op (Removing p (WithFile φ name fd) fd) (Program.sys (.stat name))
      (fun r a => ∃ size atime, r = some (size, atime) ∧
        Removing p (WithFile (fun info files => φ info files ∧ ∃ i, (name, i, size) ∈ files) name fd) fd a) E := by
  apply accounted_sys (c := .stat name) (removing_stable fd)
  · exact fun a _ h => ⟨trivial, nothing_made h.working.made, fun _ => .inl ⟨_, h.working.locked⟩⟩
  · rintro a choice _ _ hBooks h ⟨⟩ _
    obtain ⟨hφ, n, hMem⟩ := h.working.figures
    obtain ⟨hEntry, hn⟩ := mem_listing.mp hMem
    refine ⟨a, rfl, ⟨hBooks, .refl p a⟩, ?_⟩
    rw [find_iff.mpr hEntry]
    refine ⟨_, _, rfl, ⟨h.working.made, h.working.busy, h.working.locked, ⟨hφ, fd, ?_⟩, n, hMem⟩, h.locked⟩
    rw [← h.counted hBooks, ← hn]
    exact hMem

/-- At work on the size, with the info file locked or not. -/
structure AtWork (p : Pid) (ψ : Nat → Nat → Prop) (a : Accounts Pid) : Prop where
  made : a.made p = none
  busy : a.busy = some p
  figures : ψ a.disk.info a.total

omit [DecidableEq Pid] in
theorem AtWork.left {q : Pid} {a a' : Accounts Pid} {ψ : Nat → Nat → Prop} (hWork : AtWork p ψ a) (h : Leaves q a a')
    (hNot : q ≠ p) : AtWork p ψ a' := by
  refine ⟨(h.made_eq hNot).trans hWork.made, h.busy_eq hNot hWork.busy, ?_⟩
  obtain ⟨hTotal, hInfo⟩ := h.figures hNot hWork.busy
  rw [hTotal, hInfo]
  exact hWork.figures

theorem atWork_stable (ψ : Nat → Nat → Prop) : (accountContract Pid).Stable p (AtWork p ψ) :=
  stable_of fun _ _ _ hNot _ h hWork => hWork.left h hNot

def Reading (p : Pid) (ψ : Nat → Nat → Prop) (a : Accounts Pid) : Prop := AtWork p ψ a ∧ a.disk.infoLocks.Holds p .read

theorem reading_stable (ψ : Nat → Nat → Prop) : (accountContract Pid).Stable p (Reading p ψ) :=
  stable_of fun _ _ _ hNot _ h hReading => ⟨hReading.1.left h hNot, h.steps.holdsInfo hNot hReading.2⟩

/-- A quiet call while at work. -/
theorem atWork_quiet {c : Sys β} (hCall : QuietCall c) {P : Accounts Pid → Prop} {ψ : Nat → Nat → Prop}
    {Q : β → Accounts Pid → Prop}
    (hStable : (accountContract Pid).Stable p P) (hLocked : ∀ a, P a → ∃ t, a.disk.infoLocks.Holds p t)
    (hWork : ∀ a, P a → AtWork p ψ a)
    (hStep : ∀ a choice b s, Books a → P a → serve p choice c a.disk = some (b, s) → AtWork p ψ (a.next s a.busy) →
      Q b (a.next s a.busy)) :
    Accounted limits p op P (Program.sys c) Q E := by
  apply accounted_quiet hCall hStable (fun a h => (hWork a h).made) (fun a h _ => hLocked a h)
  intro a choice b s hBooks h hServe _
  have hQuiet := serve_quiet hCall hServe
  refine hStep a choice b s hBooks h hServe ⟨(hWork a h).made, (hWork a h).busy, ?_⟩
  rw [hQuiet.total]
  change ψ s.info a.total
  rw [hQuiet.info]
  exact (hWork a h).figures

/-- The call of `get_cache_size` from `purge_file`, which gives up the lock. -/
theorem getCacheSize_working (n : Nat) :
    Accounted limits p op (Working p fun info files => info = (files.map fun d => d.2.2).sum + n) getCacheSize
      (fun size => AtWork p fun _ total => size = total + n) (Idle p) := by
  have hLock : Accounted limits p op (Working p fun info files => info = (files.map fun d => d.2.2).sum + n)
      lockCacheRead
      (fun _ => Reading p fun info total => info = total + n) (Settled p) := by
    have hCall : Accounted limits p op (Working p fun info files => info = (files.map fun d => d.2.2).sum + n)
        (Program.sys (.setLockInfo .read)) (fun ok a => ok = true ∧ Reading p (fun info total => info = total + n) a)
        (Settled p) := by
      refine atWork_quiet (c := .setLockInfo .read) (ψ := fun info total => info = total + n) trivial (working_stable _)
        (fun a h => ⟨_, h.locked⟩) ?_ ?_
      · intro a h
        refine ⟨h.made, h.busy, ?_⟩
        rw [← listing_total]
        exact h.figures
      · intro a choice ok s _ h hServe hWork
        rcases serve_setLockInfo hServe with ⟨l, hAcquire, rfl, rfl⟩ | ⟨hNone, -, -⟩
        · exact ⟨rfl, hWork, Locks.acquire_own hAcquire⟩
        · obtain ⟨q, u, hNot, hHolds, -⟩ := Locks.acquire_none hNone
          exact absurd (h.locked.alone hHolds) hNot
    apply hCall.bind
    exact fun ok => failUnless_accounted (fun _ _ _ h => h.2) (fun hFail a _ h => by rw [hFail] at h; cases h.1)
  have hRead : Accounted limits p op (Reading p fun info total => info = total + n) (Program.sys .readInfo)
      (fun size => Reading p fun _ total => size = total + n) (Settled p) := by
    refine atWork_quiet (c := .readInfo) (ψ := fun info total => info = total + n) trivial (reading_stable _)
      (fun a h => ⟨_, h.2⟩) (fun a h => h.1) ?_
    rintro a choice _ _ _ h ⟨⟩ hWork
    exact ⟨⟨hWork.made, hWork.busy, hWork.figures⟩, h.2⟩
  have hUnlock (size : Nat) : Accounted limits p op (Reading p fun _ total => size = total + n) unlockCache
      (fun _ => AtWork p fun _ total => size = total + n) (Settled p) :=
    atWork_quiet (c := .unlockInfo) trivial (reading_stable _) (fun a h => ⟨_, h.2⟩)
      (fun a h => h.1) fun _ _ _ _ _ _ _ h => h
  apply unlockingCache_accounted
  apply hLock.bind
  intro _
  apply hRead.bind
  intro size
  apply (hUnlock size).bind
  exact fun _ => Contract.Meets.ret fun _ _ h => h

theorem purgeFile_accounted (hOther : op.makes = false) (file : Word) :
    Accounted limits p op (Idle p) (purgeFile file) (fun _ => Idle p) (Idle p) := by
  have hRest (size i : Nat) : Accounted limits p op
      (Removing p (WithFile (fun info files => Right info files ∧ ∃ j, (file, j, size) ∈ files) file i) i)
      (do
        failUnless (← Program.sys (.unlink file)) ("Unable to purge the file " ++ String.ofList file ++
          " from the cache")
        Program.sys (.close i)
        let cacheSize ← getCacheSize
        Program.sys (.writeInfo (minus cacheSize size))
        unlockCache) (fun _ => Idle p) (Settled p) := by
    apply unlink_removing.bind
    intro ok
    refine (failUnless_accounted (R := Working p fun info files => info = (files.map fun d => d.2.2).sum + size) ?_
      ?_).bind ?_
    · rintro - a - ⟨-, h⟩
      refine ⟨h.made, h.busy, h.locked, ?_⟩
      obtain ⟨before, n, ⟨hRight, j, hj⟩, hWithout⟩ := h.figures
      have hSize : size = n := hWithout.unique _ hj rfl
      rw [hSize, hWithout.sum]
      exact hRight
    · rintro hFail a - ⟨hOk, -⟩
      rw [hFail] at hOk
      cases hOk
    · intro _
      apply (close_working i).bind
      intro _
      apply ((getCacheSize_working size).conseq (fun _ _ h => h) (fun _ _ _ h => h) fun _ _ _ h => h.settled).bind
      intro cacheSize
      refine (writeInfo_accounted (atWork_stable _) (fun _ h => h.made) (fun _ h => h.busy) ?_).bind ?_
      · intro a hBooks h
        rw [h.figures, minus_add]
        exact Nat.mod_eq_of_lt (Nat.lt_of_le_of_lt total_le hBooks.bounded)
      · exact fun _ => unlockCache_accounted.weaken fun _ _ h => h.settled
  apply unlockingCache_accounted
  apply ((lockCacheWrite_working hOther).conseq (fun _ _ h => h)
    (fun _ _ _ h => h.working) fun _ _ _ h => h.settled).bind
  intro _
  apply (getLock_working file).bind
  intro fd
  cases fd with
  | none => exact unlockCache_accounted.weaken fun _ _ h => h.settled fun _ _ hRight => hRight
  | some i =>
    apply stat_removing.bind
    intro r
    cases r with
    | none => rintro a - ⟨size, atime, ⟨⟩, -⟩
    | some r =>
      obtain ⟨size, atime⟩ := r
      refine (hRest size i).weaken ?_
      rintro a - ⟨size, atime, ⟨⟩, h⟩
      exact h

/-! ## `update_and_purge` -/

/-- What is known of a file of the name. -/
def Sized (name : Word) (size : Nat) (files : List (Word × Nat × Nat)) : Prop := ∀ d ∈ files, d.1 = name → d.2.2 = size

/-- Where no other process is in the middle of making a file with something in it, a file is counted with the
size that is seen. -/
theorem stat_working (hPurges : op.purges = true) (name : Word) :
    Accounted limits p op (Working p φ) (Program.sys (.stat name))
      (fun r => Working p fun info files => φ info files ∧
        ∀ d ∈ files, d.1 = name → ∃ size atime, r = some (size, atime) ∧ Sized name size files) E := by
  apply working_quiet (c := .stat name) trivial
  · rintro a choice _ _ ⟨⟩
    rfl
  · rintro a choice _ _ hBooks h ⟨⟩ hCond hWorking
    refine ⟨h.made, h.busy, h.locked, h.figures, ?_⟩
    change ∀ d ∈ a.listing, d.1 = name → ∃ size atime,
      ((a.disk.find name).map fun i => ((a.disk.content i).length, choice.atime)) = some (size, atime) ∧
        Sized name size a.listing
    rintro ⟨_, i, n⟩ hd rfl
    obtain ⟨hEntry, -⟩ := mem_listing.mp hd
    rw [find_iff.mpr hEntry]
    refine ⟨_, _, rfl, ?_⟩
    rintro ⟨_, j, m⟩ hOther rfl
    obtain ⟨hOtherEntry, rfl⟩ := mem_listing.mp hOther
    rw [entry_inode hEntry hOtherEntry]
    -- A file that is still to be recorded is empty.
    by_cases hPending : a.Pending j
    · obtain ⟨q, t, hq⟩ := hPending
      have hNot : q ≠ p := by
        rintro rfl
        rw [h.made] at hq
        cases hq
      obtain rfl := entry_name hOtherEntry (hBooks.named q t j hq).1
      have hEmpty : a.disk.content j = [] := hCond hPurges q j hNot hq
      rw [hEmpty]
      exact counted_empty hEmpty
    · exact counted_recorded hPending

/-- In the middle of the loop of `m_collect_cache_dir_info`. -/
structure Collected (remaining : List Word) (currentSize : Nat) (contents : List CacheEntry) (info : Nat)
    (files : List (Word × Nat × Nat)) : Prop where
  right : Right info files
  split : ∃ done rest, files = done ++ rest ∧ rest.map Prod.fst = remaining ∧
    currentSize = (done.map fun d => d.2.2).sum % ulonglong
  sized : ∀ e ∈ contents, Sized e.name e.size files

/-- In the middle of the loop of `update_and_purge`. -/
structure Balanced (entries : List CacheEntry) (size : Nat) (info : Nat) (files : List (Word × Nat × Nat)) : Prop where
  total : size = (files.map fun d => d.2.2).sum
  sized : ∀ e ∈ entries, Sized e.name e.size files

theorem collectFiles_accounted (hPurges : op.purges = true) (remaining : List Word) (currentSize : Nat)
    (contents : List CacheEntry) :
    Accounted limits p op (Working p (Collected remaining currentSize contents))
      (collectFiles remaining currentSize contents)
      (fun r => Working p (Collected [] r.1 r.2)) E := by
  induction remaining generalizing currentSize contents with
  | nil => exact Contract.Meets.ret fun _ _ h => h
  | cons file remaining ih =>
    apply (stat_working hPurges file).bind
    intro r
    have hNext : ∀ a : Accounts Pid, Working p (fun info files => Collected
        (file :: remaining) currentSize contents info files ∧
        ∀ d ∈ files, d.1 = file → ∃ size atime, r = some (size, atime) ∧ Sized file size files) a →
        ∃ size time, r = some (size, time) ∧
          Working p (Collected remaining ((currentSize + size) % ulonglong) (contents ++ [⟨file, size, time⟩])) a := by
      rintro a ⟨hMade, hBusy, hLocked, ⟨hRight, ⟨done, rest, hFiles, hNames, hSum⟩, hSized⟩, hSeen⟩
      obtain ⟨d, rest, rfl, hName, hRest⟩ := List.map_eq_cons_iff.mp hNames
      have hMem : d ∈ a.listing := by simp [hFiles]
      obtain ⟨size, atime, hr, hSize⟩ := hSeen d hMem hName
      refine ⟨size, atime, hr, hMade, hBusy, hLocked, hRight, ⟨done ++ [d], rest, by simp [hFiles], hRest, ?_⟩, ?_⟩
      · rw [hSum, ← hSize d hMem hName, Nat.mod_add_mod]
        simp
      · intro e he
        rcases List.mem_append.mp he with he | he
        · exact hSized e he
        · rw [List.mem_singleton.mp he]
          exact hSize
    cases r with
    | none =>
      intro a _ h
      obtain ⟨_, _, hr, -⟩ := hNext a h
      cases hr
    | some r =>
      obtain ⟨size, time⟩ := r
      apply (ih _ _).weaken
      intro a _ h
      obtain ⟨_, _, ⟨⟩, hCollected⟩ := hNext a h
      exact hCollected

theorem collectCacheDirInfo_accounted (hPurges : op.purges = true) :
    Accounted limits p op (Working p Right) collectCacheDirInfo
      (fun r => Working p (Balanced r.2 r.1)) E := by
  have hList : Accounted limits p op (Working p Right) (Program.sys .readdir)
      (fun files => Working p (Collected files 0 [])) E := by
    apply working_quiet (c := .readdir) trivial
    · rintro a choice _ _ ⟨⟩
      rfl
    · rintro a choice _ _ _ h ⟨⟩ - -
      refine ⟨h.made, h.busy, h.locked, h.figures, ⟨[], a.listing, rfl, ?_, rfl⟩, by simp⟩
      rw [listing, List.map_map]
      rfl
  apply hList.bind
  intro files
  apply (collectFiles_accounted hPurges files 0 []).bind
  rintro ⟨currentSize, contents⟩
  apply Contract.Meets.ret
  rintro a hBooks ⟨hMade, hBusy, hLocked, hRight, ⟨done, rest, hFiles, hNames, hSum⟩, hSized⟩
  obtain rfl : rest = [] := List.map_eq_nil_iff.mp hNames
  rw [List.append_nil] at hFiles
  refine ⟨hMade, hBusy, hLocked, ?_, ?_⟩
  · have hTotal := listing_total a
    rw [hFiles] at hTotal ⊢
    rw [hSum, hTotal]
    exact Nat.mod_eq_of_lt (Nat.lt_of_le_of_lt total_le hBooks.bounded)
  · intro e he
    exact hSized e ((List.mem_insertionSort _).mp he)

theorem getExclusiveLockNB_working (name : Word) : Accounted limits p op (Working p φ) (getExclusiveLockNB name)
    (fun fd a => match fd with
      | none => Working p φ a
      | some i => Removing p (WithFile φ name i) i a) E := by
  apply (openFile_working name).bind
  intro fd
  cases fd with
  | none => exact Contract.Meets.ret fun _ _ h => h
  | some i =>
    refine (tryLock_working (c := .setLock i .write) trivial ?_).bind ?_
    · intro s s' choice ok hServe
      rcases serve_setLock hServe with hTaken | ⟨-, hFail⟩
      · exact .inl hTaken
      · exact .inr hFail
    · intro ok
      cases ok with
      | true => exact Contract.Meets.ret fun _ _ h => h
      | false =>
        apply (close_working i).bind
        exact fun _ => Contract.Meets.ret fun _ _ h => ⟨h.made, h.busy, h.locked, h.figures.1⟩

theorem purgeFiles_accounted (newFile : Word) (entries : List CacheEntry) (done : Purge) :
    Accounted limits p op (Working p (Balanced entries done.size)) (purgeFiles limits newFile entries done)
      (fun done => Working p (Balanced [] done.size)) E := by
  induction entries generalizing done with
  | nil => exact Contract.Meets.ret fun _ _ h => h
  | cons entry entries ih =>
    have hSkip : ∀ a : Accounts Pid, Working p (Balanced (entry :: entries) done.size) a →
        Working p (Balanced entries done.size) a :=
      fun a h => ⟨h.made, h.busy, h.locked, h.figures.total, fun e he => h.figures.sized e (List.mem_cons_of_mem _ he)⟩
    rw [purgeFiles]
    split
    · split
      · exact (ih done).weaken fun a _ h => hSkip a h
      · apply (getExclusiveLockNB_working entry.name).bind
        intro fd
        cases fd with
        | none => exact (ih _).weaken fun a _ h => hSkip a h
        | some fd =>
          apply unlink_removing.bind
          intro ok
          refine (failUnless_accounted (R := Working p (Balanced entries (minus done.size entry.size))) ?_ ?_).bind ?_
          · rintro - a hBooks ⟨-, h⟩
            obtain ⟨before, n, hBalanced, hWithout⟩ := h.figures
            refine ⟨h.made, h.busy, h.locked, ?_, ?_⟩
            · obtain ⟨i, hi⟩ := hWithout.named
              have hSize : n = entry.size := hBalanced.sized entry List.mem_cons_self _ hi rfl
              rw [hBalanced.total, ← hWithout.sum, hSize, minus_add, listing_total]
              exact Nat.mod_eq_of_lt (Nat.lt_of_le_of_lt total_le hBooks.bounded)
            · intro e he d hd
              exact hBalanced.sized e (List.mem_cons_of_mem _ he) d (hWithout.subset hd)
          · rintro hFail a - ⟨hOk, -⟩
            rw [hFail] at hOk
            cases hOk
          · intro _
            apply (close_working fd).bind
            exact fun _ => ih { done with size := minus done.size entry.size, removed := entry.name :: done.removed }
    · apply Contract.Meets.ret
      exact fun a _ h => ⟨h.made, h.busy, h.locked, h.figures.total, fun _ he => absurd he List.not_mem_nil⟩

theorem purgeTooBig_accounted (newFile : Word) (computedSize : Nat) (contents : List CacheEntry) :
    Accounted limits p op (Working p (Balanced contents computedSize))
      (purgeTooBig limits newFile computedSize contents)
      (fun done => Working p (Balanced [] done.size)) E := by
  rw [purgeTooBig]
  split
  · exact purgeFiles_accounted newFile contents ⟨contents, computedSize, [], []⟩
  · apply Contract.Meets.ret
    exact fun a _ h => ⟨h.made, h.busy, h.locked, h.figures.total, fun _ he => absurd he List.not_mem_nil⟩

theorem updateAndPurge_accounted (hOther : op.makes = false) (hPurges : op.purges = true) (newFile : Word) :
    Accounted limits p op (Idle p) (updateAndPurge limits newFile) (fun _ => Idle p) (Idle p) := by
  apply unlockingCache_accounted
  apply ((lockCacheWrite_working hOther).conseq (fun _ _ h => h)
    (fun _ _ _ h => h.working) fun _ _ _ h => h.settled).bind
  intro _
  apply (collectCacheDirInfo_accounted hPurges).bind
  rintro ⟨computedSize, contents⟩
  apply (purgeTooBig_accounted newFile computedSize contents).bind
  intro done
  refine (writeInfo_accounted (working_stable _) (fun _ h => h.made) (fun _ h => h.busy) ?_).bind ?_
  · intro a _ h
    rw [← listing_total]
    exact h.figures.total
  · intro _
    apply (unlockCache_accounted.weaken fun _ _ h => h.settled).bind
    exact fun _ => Contract.Meets.ret fun _ _ h => h

end

end Libdap.Cache
