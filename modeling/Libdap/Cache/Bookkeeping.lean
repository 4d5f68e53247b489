import Libdap.Cache.Accounts

/-! # How the cache's methods keep the books

What each method makes of the accounts, whatever other processes do between its calls.
-/

namespace Libdap.Cache
open Core Constraint CacheDisk Accounts
set_option autoImplicit false

/-! ## The contract -/

def CacheOp.makes : CacheOp → Bool
  | .create _ _ => true
  | _ => false

def CacheOp.purges : CacheOp → Bool
  | .updateAndPurge _ => true
  | _ => false

section
variable {Pid : Type} [DecidableEq Pid]

/-- What an allowed call can count on. -/
def AccountCond (p : Pid) (op : CacheOp) (a : Accounts Pid) : {β : Type} → Sys β → Prop
  | _, .setLockInfo .write =>
    ((op.makes = true ∧ a.made p = none) ∨ ∀ q, q ≠ p → a.busy = some q → ∃ t, a.disk.infoLocks.Holds q t) ∧
    (a.disk.infoLocks.grants p .write = false → ∀ t i, a.made p = some (t, i) → a.disk.content i = [])
  | _, .stat name => op.purges = true → ∀ q i, q ≠ p → a.made q = some (name, i) → a.disk.content i = []
  | _, .write _ data => a.disk.size + data.length < ulonglong
  | _, _ => True

end

section
variable {Pid : Type}

def Records : {β : Type} → Sys β → Prop
  | _, .writeInfo _ => True
  | _, _ => False

structure AccountLink (p : Pid) (op : CacheOp) {β : Type} (c : Sys β) (a : Accounts Pid) : Prop where
  proper : a.disk.Proper p c
  making : ∀ t i, a.made p = some (t, i) → ∃ data, op = .create t data
  busy : a.busy = some p → (∃ t, a.disk.infoLocks.Holds p t) ∨ Records c

def accountContract (Pid : Type) [DecidableEq Pid] : Contract Pid (CacheDisk Pid)
    (Accounts Pid) CacheOp Choice Sys where
  real := disk
  inv := Books
  guar := Leaves
  cond p op _ _ c a := AccountCond p op a c
  link p op _ c a := AccountLink p op c a

end

section
variable {Pid : Type} [DecidableEq Pid]

abbrev Accounted {α : Type} (limits : CacheLimits) (p : Pid) (op : CacheOp) (P : Accounts Pid → Prop) (x : Proc α)
    (Q : α → Accounts Pid → Prop) (E : Accounts Pid → Prop) : Prop :=
  (accountContract Pid).Meets (cacheMachine Pid limits) p op P x Q fun _ => E

variable {limits : CacheLimits} {p : Pid} {op : CacheOp} {P R E E' : Accounts Pid → Prop} {α β : Type}

omit [DecidableEq Pid] in
theorem nothing_made {a : Accounts Pid} (h : a.made p = none) {φ : Word → Nat → Prop} (t : Word) (i : Nat)
    (hMade : a.made p = some (t, i)) : φ t i := by
  rw [h] at hMade
  cases hMade

theorem stable_of {P : Accounts Pid → Prop} (h : ∀ q a a', q ≠ p → Books a → Leaves q a a' → P a → P a') :
    (accountContract Pid).Stable p P := fun q a a' hNot hBooks _ hLeaves hP => h q a a' hNot hBooks hLeaves hP

theorem idle_stable : (accountContract Pid).Stable p (Idle p) := stable_of fun _ _ _ hNot _ h => h.idle hNot

theorem correct_stable (file : Option (Word × Nat)) : (accountContract Pid).Stable p (Correct p file) :=
  stable_of fun _ _ _ hNot _ h => h.correct hNot

theorem settled_stable : (accountContract Pid).Stable p (Settled p) := stable_of fun _ _ _ hNot _ h => h.settled hNot

theorem accounted_sys {c : Sys β} {Q : β → Accounts Pid → Prop} (hStable : (accountContract Pid).Stable p P)
    (hLink : ∀ a, Books a → P a → AccountLink p op c a)
    (hStep : ∀ a choice b s, Books a → P a → serve p choice c a.disk = some (b, s) → AccountCond p op a c →
      ∃ a', a'.disk = s ∧ (Books a' ∧ Leaves p a a') ∧ Q b a') :
    Accounted limits p op P (Program.sys c) Q E := by
  apply Contract.Meets.sys hStable hLink
  intro a choice b s hBooks hP hServe hCond
  obtain ⟨a', hDisk, ⟨hBooks', hLeaves⟩, hQ⟩ := hStep a choice b s hBooks hP hServe hCond
  exact ⟨a', hDisk, hBooks', hLeaves, hQ⟩

/-- The calls that change neither names nor data nor the recorded size. -/
def QuietCall : {β : Type} → Sys β → Prop
  | _, .createFile _ => False
  | _, .write _ _ => False
  | _, .unlink _ => False
  | _, .writeInfo _ => False
  | _, _ => True

theorem serve_quiet {c : Sys β} (hCall : QuietCall c) {choice : Choice} {s s' : CacheDisk Pid} {b : β}
    (hServe : serve p choice c s = some (b, s')) : Quiet s s' := by
  cases c with
  | setLockInfo type => rcases serve_setLockInfo hServe with ⟨l, -, -, rfl⟩ | ⟨-, -, rfl⟩ <;> exact ⟨rfl, rfl, rfl⟩
  | setLockWait fd type => rcases serve_setLockWait hServe with ⟨hFd, l, -, -, rfl⟩ | ⟨-, -, rfl⟩ <;> exact ⟨rfl, rfl,
    rfl⟩
  | setLock fd type => rcases serve_setLock hServe with ⟨hFd, l, -, -, rfl⟩ | ⟨-, -, rfl⟩ <;> exact ⟨rfl, rfl, rfl⟩
  | close fd => rcases serve_close hServe with ⟨hFd, rfl⟩ | ⟨-, rfl⟩ <;> exact ⟨rfl, rfl, rfl⟩
  | createFile name => cases hCall
  | write fd data => cases hCall
  | unlink name => cases hCall
  | writeInfo size => cases hCall
  | unlockInfo | readInfo | openFile name | stat name | readdir =>
    cases hServe
    exact ⟨rfl, rfl, rfl⟩

omit [DecidableEq Pid] in
theorem QuietCall.proper {c : Sys β} (hCall : QuietCall c) (s : CacheDisk Pid) : s.Proper p c := by
  cases c with
  | createFile name => cases hCall
  | write fd data => cases hCall
  | unlink name => cases hCall
  | _ => trivial

/-- A quiet call of a process with nothing pending. -/
theorem accounted_quiet {c : Sys β} (hCall : QuietCall c) {Q : β → Accounts Pid → Prop}
    (hStable : (accountContract Pid).Stable p P) (hMade : ∀ a, P a → a.made p = none)
    (hBusy : ∀ a, P a → a.busy = some p → ∃ t, a.disk.infoLocks.Holds p t)
    (hStep : ∀ a choice b s, Books a → P a → serve p choice c a.disk = some (b, s) → AccountCond p op a c →
      Q b (a.next s a.busy)) :
    Accounted limits p op P (Program.sys c) Q E := by
  apply accounted_sys hStable
  · intro a _ hP
    exact ⟨hCall.proper a.disk, nothing_made (hMade a hP), fun h => .inl (hBusy a hP h)⟩
  · intro a choice b s hBooks hP hServe hCond
    have hQuiet := serve_quiet hCall hServe
    have hSteps := serve_steps (hCall.proper a.disk) hServe
    exact ⟨a.next s a.busy, rfl,
      ⟨hQuiet.books hSteps hBooks (nothing_made (hMade a hP)) hBooks.right, hQuiet.leaves hSteps (.inl rfl)⟩,
      hStep a choice b s hBooks hP hServe hCond⟩

theorem Idle.quiet {c : Sys β} (hCall : QuietCall c) : Accounted limits p op (Idle p) (Program.sys c)
    (fun _ => Idle p) E :=
  accounted_quiet hCall idle_stable (fun _ h => h.made) (fun _ h hBusy => absurd hBusy h.busy)
    fun _ _ _ _ _ h _ _ => ⟨h.made, h.busy⟩

theorem failUnless_accounted {ok : Bool} {msg : String} (hOk : ok = true → ∀ a, Books a → P a → R a)
    (hFail : ok = false → ∀ a, Books a → P a → E a) : Accounted limits p op P (failUnless ok msg) (fun _ => R) E := by
  cases ok with
  | true => exact Contract.Meets.ret (hOk rfl)
  | false => exact Contract.Meets.throw (hFail rfl)

/-- What the handlers do. -/
theorem unlockCache_accounted : Accounted limits p op (Settled p) unlockCache (fun _ => Idle p) E := by
  apply accounted_sys settled_stable
  · intro a _ h
    exact ⟨trivial, nothing_made h.made, fun hBusy => .inl ⟨_, (h.right hBusy).1⟩⟩
  · rintro a choice _ _ hBooks h ⟨⟩ _
    have hSteps : Steps p a.disk { a.disk with infoLocks := a.disk.infoLocks.release p } :=
      infoLocks_steps fun q t hNot => Locks.release_other hNot
    have hQuiet : Quiet a.disk { a.disk with infoLocks := a.disk.infoLocks.release p } := ⟨rfl, rfl, rfl⟩
    by_cases hBusy : a.busy = some p
    · refine ⟨a.next _ none, rfl, ⟨hQuiet.books hSteps hBooks (nothing_made h.made) fun _ => (h.right hBusy).2,
        hQuiet.leaves hSteps (.inr ⟨.inr hBusy, .inl rfl⟩)⟩, h.made, ?_⟩
      exact (Option.some_ne_none p).symm
    · exact ⟨a.next _ a.busy, rfl, ⟨hQuiet.books hSteps hBooks (nothing_made h.made) hBooks.right,
        hQuiet.leaves hSteps (.inl rfl)⟩,
        h.made, hBusy⟩

theorem unlockingCache_accounted {x : Proc α} {Q : α → Accounts Pid → Prop}
    (h : Accounted limits p op P x Q (Settled p)) :
    Accounted limits p op P (unlockingCache x) Q (Idle p) := by
  apply Contract.Meets.tryCatch h
  intro f
  apply unlockCache_accounted.bind
  exact fun _ => Contract.Meets.throw fun _ _ hIdle => hIdle

/-! ## Methods that leave the size alone -/

theorem lockCacheRead_idle : Accounted limits p op (Idle p) lockCacheRead (fun _ => Idle p) (Idle p) := by
  apply (Idle.quiet (c := .setLockInfo .read) trivial).bind
  exact fun ok => failUnless_accounted (fun _ _ _ h => h) (fun _ _ _ h => h)

theorem getCacheSize_idle : Accounted limits p op (Idle p) getCacheSize (fun _ => Idle p) (Idle p) := by
  apply unlockingCache_accounted
  apply (lockCacheRead_idle.conseq (fun _ _ h => h) (fun _ _ _ h => h) fun _ _ _ h => h.settled).bind
  intro _
  apply (Idle.quiet (c := .readInfo) trivial).bind
  intro size
  apply (unlockCache_accounted.weaken fun _ _ h => h.settled).bind
  exact fun _ => Contract.Meets.ret fun _ _ h => h

theorem lockFile_idle (fd : Nat) (type : LockType) : Accounted limits p op (Idle p) (lockFile fd type) (fun _ => Idle p)
    (Idle p) := by
  apply (Idle.quiet (c := .setLockWait fd type) trivial).bind
  intro ok
  cases ok with
  | true => exact Contract.Meets.ret fun _ _ h => h
  | false =>
    apply (Idle.quiet (c := .close fd) trivial).bind
    exact fun _ => Contract.Meets.throw fun _ _ h => h

theorem getReadLock_idle (target : Word) : Accounted limits p op (Idle p) (getReadLock target) (fun _ => Idle p)
    (Idle p) := by
  have hLock : Accounted limits p op (Idle p) (getLock target .read) (fun _ => Idle p) (Idle p) := by
    apply (Idle.quiet (c := .openFile target) trivial).bind
    intro fd
    cases fd with
    | none => exact Contract.Meets.ret fun _ _ h => h
    | some fd =>
      apply (lockFile_idle fd .read).bind
      exact fun _ => Contract.Meets.ret fun _ _ h => h
  apply lockCacheRead_idle.bind
  intro _
  apply hLock.bind
  intro fd
  apply (unlockCache_accounted.weaken fun _ _ h => h.settled).bind
  exact fun _ => Contract.Meets.ret fun _ _ h => h

/-! ## The lock for work on the size -/

/-- The process has made a file, which is still to be recorded. -/
structure Makes (p : Pid) (t : Word) (i : Nat) (a : Accounts Pid) : Prop where
  made : a.made p = some (t, i)
  busy : a.busy ≠ some p

theorem makes_stable (t : Word) (i : Nat) : (accountContract Pid).Stable p (Makes p t i) :=
  stable_of fun _ _ _ hNot _ h hMakes => ⟨(h.made_eq hNot).trans hMakes.made, h.notBusy hNot hMakes.busy⟩

/-- Nobody else is at work on the size when the lock is granted. -/
theorem not_busy {a : Accounts Pid} (hOwn : a.busy ≠ some p) (hCond : AccountCond p op a (.setLockInfo .write))
    (hOther : op.makes = true → a.made p ≠ none) {l : Locks Pid} (hLock : a.disk.infoLocks.acquire p .write = some l) :
    a.busy = none := by
  cases hBusy : a.busy with
  | none => rfl
  | some q =>
    have hNot : q ≠ p := by
      rintro rfl
      exact hOwn hBusy
    rcases hCond.1 with ⟨hMakes, hNone⟩ | hHolds
    · exact absurd hNone (hOther hMakes)
    · obtain ⟨t, ht⟩ := hHolds q hNot hBusy
      exact absurd (Locks.acquire_write_free hLock ht) hNot

theorem lockCacheWrite_working (hOther : op.makes = false) :
    Accounted limits p op (Idle p) lockCacheWrite (fun _ => Correct p none) (Idle p) := by
  have hLock : Accounted limits p op (Idle p) (Program.sys (.setLockInfo .write))
      (fun ok a => if ok = true then Correct p none a else Idle p a) (Idle p) := by
    apply accounted_sys (c := .setLockInfo .write) idle_stable
    · exact fun a _ h => ⟨trivial, nothing_made h.made, fun hBusy => absurd hBusy h.busy⟩
    · intro a choice ok s hBooks h hServe hCond
      have hQuiet := serve_quiet (c := .setLockInfo .write) trivial hServe
      have hSteps := serve_steps (c := .setLockInfo .write) trivial hServe
      rcases serve_setLockInfo hServe with ⟨l, hAcquire, rfl, rfl⟩ | ⟨-, rfl, rfl⟩
      · have hNone := not_busy h.busy hCond (fun hMakes => by rw [hOther] at hMakes; cases hMakes) hAcquire
        refine ⟨a.next _ (some p), rfl, ⟨hQuiet.books hSteps hBooks (nothing_made h.made) (by rintro ⟨⟩),
          hQuiet.leaves hSteps (.inr ⟨.inl hNone, .inr rfl⟩)⟩, ?_⟩
        rw [if_pos rfl]
        exact ⟨h.made, rfl, Locks.acquire_own hAcquire, (hBooks.right hNone).trans hQuiet.total.symm⟩
      · exact ⟨a, rfl, ⟨hBooks, .refl p a⟩, h⟩
  apply hLock.bind
  exact fun ok => failUnless_accounted (fun hOk a _ h => by rwa [if_pos hOk] at h) (fun hOk a _ h => by rwa [hOk] at h)

theorem lockCacheWrite_recording {t : Word} {data : List Bytes} (i : Nat) :
    Accounted limits p (.create t data) (Makes p t i) lockCacheWrite (fun _ => Correct p (some (t, i)))
      (Settled p) := by
  have hLock : Accounted limits p (.create t data) (Makes p t i) (Program.sys (.setLockInfo .write))
      (fun ok a => if ok = true then Correct p (some (t, i)) a else Idle p a) (Settled p) := by
    apply accounted_sys (c := .setLockInfo .write) (makes_stable t i)
    · intro a _ h
      refine ⟨trivial, ?_, fun hBusy => absurd hBusy h.busy⟩
      intro u j hMade
      rw [h.made] at hMade
      cases hMade
      exact ⟨data, rfl⟩
    · intro a choice ok s hBooks h hServe hCond
      have hQuiet := serve_quiet (c := .setLockInfo .write) trivial hServe
      have hSteps := serve_steps (c := .setLockInfo .write) trivial hServe
      rcases serve_setLockInfo hServe with ⟨l, hAcquire, rfl, rfl⟩ | ⟨hFail, rfl, rfl⟩
      · have hNone := not_busy h.busy hCond (fun _ => by rw [h.made]; exact Option.some_ne_none _) hAcquire
        have hOwn : Locks.Holds l p .write := Locks.acquire_own hAcquire
        refine ⟨a.next _ (some p), rfl, ⟨hQuiet.books hSteps hBooks (fun _ _ _ => .inr hOwn) (by rintro ⟨⟩),
          hQuiet.leaves hSteps (.inr ⟨.inl hNone, .inr rfl⟩)⟩, ?_⟩
        rw [if_pos rfl]
        exact ⟨h.made, rfl, hOwn, (hBooks.right hNone).trans hQuiet.total.symm⟩
      · -- An empty file need not be recorded.
        have hGrants : a.disk.infoLocks.grants p .write = false := by
          rw [Locks.acquire] at hFail
          split at hFail
          · cases hFail
          · rename_i hNot
            simpa using hNot
        exact ⟨a.noting p none a.disk a.busy, rfl, hBooks.dropped h.made (hCond.2 hGrants t i h.made) hQuiet hSteps,
          noting_self, h.busy⟩
  apply hLock.bind
  exact fun ok => failUnless_accounted (fun hOk a _ h => by rwa [if_pos hOk] at h)
    (fun hOk a _ h => by rw [hOk] at h; exact Idle.settled h)

/-! ## Making a file -/

/-- Nothing is made yet, and the info file is locked for the directory. -/
structure Opening (p : Pid) (a : Accounts Pid) : Prop where
  idle : Idle p a
  locked : a.disk.infoLocks.Holds p .write

/-- The file is made and still empty, and not yet locked. -/
structure Opened (p : Pid) (t : Word) (i : Nat) (a : Accounts Pid) : Prop where
  makes : Makes p t i a
  locked : a.disk.infoLocks.Holds p .write
  empty : a.disk.content i = []

structure Writes (p : Pid) (t : Word) (i : Nat) (a : Accounts Pid) : Prop where
  makes : Makes p t i a
  locked : (a.disk.locks i).Holds p .write

theorem opening_stable : (accountContract Pid).Stable p (Opening p) :=
  stable_of fun _ _ _ hNot _ h hOpening => ⟨h.idle hNot hOpening.idle, h.steps.holdsInfo hNot hOpening.locked⟩

theorem opened_stable (t : Word) (i : Nat) : (accountContract Pid).Stable p (Opened p t i) := by
  apply stable_of
  intro q a a' hNot hBooks h hOpened
  refine ⟨⟨(h.made_eq hNot).trans hOpened.makes.made, h.notBusy hNot hOpened.makes.busy⟩,
    h.steps.holdsInfo hNot hOpened.locked, ?_⟩
  rw [h.content_eq hNot hBooks hOpened.makes.made]
  exact hOpened.empty

theorem writes_stable (t : Word) (i : Nat) : (accountContract Pid).Stable p (Writes p t i) :=
  stable_of fun _ _ _ hNot _ h hWrites =>
    ⟨⟨(h.made_eq hNot).trans hWrites.makes.made, h.notBusy hNot hWrites.makes.busy⟩, h.steps.holds hNot hWrites.locked⟩

omit [DecidableEq Pid] in
theorem Makes.link {t : Word} {i : Nat} {data : List Bytes} {a : Accounts Pid} (h : Makes p t i a) {c : Sys β}
    (hProper : a.disk.Proper p c) : AccountLink p (.create t data) c a := by
  refine ⟨hProper, ?_, fun hBusy => absurd hBusy h.busy⟩
  intro u j hMade
  rw [h.made] at hMade
  cases hMade
  exact ⟨data, rfl⟩

/-- The lock for a look at the directory, under which the file is made. -/
theorem lockCacheWrite_opening :
    Accounted limits p op (Idle p) lockCacheWrite (fun _ => Opening p) (Idle p) := by
  have hLock : Accounted limits p op (Idle p) (Program.sys (.setLockInfo .write))
      (fun ok a => if ok = true then Opening p a else Idle p a) (Idle p) := by
    apply accounted_quiet (c := .setLockInfo .write) trivial idle_stable (fun _ h => h.made)
      (fun _ h hBusy => absurd hBusy h.busy)
    intro a choice ok s _ h hServe _
    rcases serve_setLockInfo hServe with ⟨l, hAcquire, rfl, rfl⟩ | ⟨-, rfl, rfl⟩
    · rw [if_pos rfl]
      exact ⟨⟨h.made, h.busy⟩, Locks.acquire_own hAcquire⟩
    · exact h
  apply hLock.bind
  exact fun ok => failUnless_accounted (fun hOk a _ h => by rwa [if_pos hOk] at h) (fun hOk a _ h => by rwa [hOk] at h)

variable {t : Word} {data : List Bytes}

theorem createFile_accounted : Accounted limits p (.create t data) (Opening p) (Program.sys (.createFile t))
    (fun fd a => match fd with
      | none => Idle p a
      | some i => Opened p t i a) E := by
  apply accounted_sys (c := .createFile t) opening_stable
  · exact fun a _ h => ⟨h.locked, nothing_made h.idle.made, fun hBusy => absurd hBusy h.idle.busy⟩
  · intro a choice fd s hBooks h hServe _
    have hSteps := serve_steps (c := .createFile t) h.locked hServe
    rcases serve_createFile hServe with ⟨hNone, rfl, rfl⟩ | ⟨rfl, rfl⟩
    · exact ⟨a.noting p (some (t, a.disk.next)) (a.disk.created t hNone) a.busy, rfl,
        hBooks.created hNone h.idle.made h.locked hSteps, ⟨noting_self, h.idle.busy⟩, h.locked,
        (a.disk.unborn _ (Nat.le_refl _)).1⟩
    · exact ⟨a, rfl, ⟨hBooks, .refl p a⟩, h.idle⟩

theorem lockFile_opened (i : Nat) :
    Accounted limits p (.create t data) (Opened p t i) (lockFile i .write) (fun _ => Writes p t i) (Idle p) := by
  have hLock : Accounted limits p (.create t data) (Opened p t i) (Program.sys (.setLockWait i .write))
      (fun ok a => if ok = true then Writes p t i a else Opened p t i a) (Idle p) := by
    apply accounted_sys (c := .setLockWait i .write) (opened_stable t i)
    · exact fun a _ h => h.makes.link trivial
    · intro a choice ok s hBooks h hServe _
      have hQuiet := serve_quiet (c := .setLockWait i .write) trivial hServe
      have hSteps := serve_steps (c := .setLockWait i .write) trivial hServe
      rcases serve_setLockWait hServe with ⟨hFd, l, hAcquire, rfl, rfl⟩ | ⟨-, rfl, rfl⟩
      · refine ⟨a.next _ a.busy, rfl, ⟨hQuiet.books hSteps hBooks (fun _ _ _ => .inr h.locked) hBooks.right,
          hQuiet.leaves hSteps (.inl rfl)⟩, ?_⟩
        rw [if_pos rfl]
        refine ⟨⟨h.makes.made, h.makes.busy⟩, ?_⟩
        change Locks.Holds ((a.disk.withLocks i l hFd).locks i) p .write
        rw [withLocks_self]
        exact Locks.acquire_own hAcquire
      · exact ⟨a, rfl, ⟨hBooks, .refl p a⟩, h⟩
  have hClose : Accounted limits p (.create t data) (Opened p t i) (Program.sys (.close i)) (fun _ => Idle p)
      (Idle p) := by
    apply accounted_sys (c := .close i) (opened_stable t i)
    · exact fun a _ h => h.makes.link trivial
    · intro a choice u s hBooks h hServe _
      have hQuiet := serve_quiet (c := .close i) trivial hServe
      have hSteps := serve_steps (c := .close i) trivial hServe
      exact ⟨a.noting p none s a.busy, rfl, hBooks.dropped h.makes.made h.empty hQuiet hSteps, noting_self,
        h.makes.busy⟩
  apply hLock.bind
  intro ok
  cases ok with
  | true => exact Contract.Meets.ret fun _ _ h => h
  | false =>
    apply hClose.bind
    exact fun _ => Contract.Meets.throw fun _ _ h => h

theorem unlockCache_writes (i : Nat) :
    Accounted limits p (.create t data) (Writes p t i) unlockCache (fun _ => Writes p t i) E := by
  apply accounted_sys (c := .unlockInfo) (writes_stable t i)
  · exact fun a _ h => h.makes.link trivial
  · intro a choice u s hBooks h hServe _
    have hQuiet := serve_quiet (c := .unlockInfo) trivial hServe
    have hSteps := serve_steps (c := .unlockInfo) trivial hServe
    have hLocked : ∃ u, (s.locks i).Holds p u := by
      cases hServe
      exact ⟨_, h.locked⟩
    refine ⟨a.next s a.busy, rfl, ⟨hQuiet.books hSteps hBooks ?_ hBooks.right, hQuiet.leaves hSteps (.inl rfl)⟩,
      ⟨h.makes.made, h.makes.busy⟩, ?_⟩
    · intro u j hMade
      rw [h.makes.made] at hMade
      cases hMade
      exact .inl hLocked
    · cases hServe
      exact h.locked

theorem createAndLock_accounted : Accounted limits p (.create t data) (Idle p) (createAndLock t)
    (fun fd a => match fd with
      | none => Idle p a
      | some i => Writes p t i a) (Idle p) := by
  have hCreate : Accounted limits p (.create t data) (Opening p) (createLockedFile t)
      (fun fd a => match fd with
        | none => Idle p a
        | some i => Writes p t i a) (Idle p) := by
    apply createFile_accounted.bind
    intro fd
    cases fd with
    | none => exact Contract.Meets.ret fun _ _ h => h
    | some i =>
      apply (lockFile_opened i).bind
      exact fun _ => Contract.Meets.ret fun _ _ h => h
  apply lockCacheWrite_opening.bind
  intro _
  apply hCreate.bind
  intro fd
  cases fd with
  | none =>
    apply (unlockCache_accounted.weaken fun _ _ h => h.settled).bind
    exact fun _ => Contract.Meets.ret fun _ _ h => h
  | some i =>
    apply (unlockCache_writes i).bind
    exact fun _ => Contract.Meets.ret fun _ _ h => h

theorem write_accounted (i : Nat) (bytes : Bytes) :
    Accounted limits p (.create t data) (Writes p t i) (Program.sys (.write i bytes)) (fun _ => Writes p t i) E := by
  apply accounted_sys (c := .write i bytes) (writes_stable t i)
  · exact fun a _ h => h.makes.link h.locked
  · intro a choice u s hBooks h hServe hCond
    have hSteps := serve_steps (c := .write i bytes) h.locked hServe
    rcases serve_write hServe with ⟨hFd, rfl⟩ | ⟨-, rfl⟩
    · exact ⟨a.next _ a.busy, rfl, hBooks.appended h.makes.made hCond hFd hSteps, ⟨h.makes.made, h.makes.busy⟩,
        h.locked⟩
    · exact ⟨a, rfl, ⟨hBooks, .refl p a⟩, h⟩

theorem writeAll_accounted (i : Nat) (rest : List Bytes) :
    Accounted limits p (.create t data) (Writes p t i) (writeAll i rest) (fun _ => Writes p t i) E := by
  induction rest with
  | nil => exact Contract.Meets.ret fun _ _ h => h
  | cons bytes rest ih =>
    apply (write_accounted i bytes).bind
    exact fun _ => ih

/-- Whoever has the exclusive lock gets the shared one for it. -/
theorem exclusiveToSharedLock_accounted (i : Nat) :
    Accounted limits p (.create t data) (Writes p t i) (exclusiveToSharedLock i) (fun _ => Makes p t i) (Idle p) := by
  have hLock : Accounted limits p (.create t data) (Writes p t i) (Program.sys (.setLockWait i .read))
      (fun ok a => ok = true ∧ Makes p t i a) (Idle p) := by
    apply accounted_sys (c := .setLockWait i .read) (writes_stable t i)
    · exact fun a _ h => h.makes.link trivial
    · intro a choice ok s hBooks h hServe _
      have hQuiet := serve_quiet (c := .setLockWait i .read) trivial hServe
      have hSteps := serve_steps (c := .setLockWait i .read) trivial hServe
      rcases serve_setLockWait hServe with ⟨hFd, l, hAcquire, rfl, rfl⟩ | ⟨hFail, -, -⟩
      · refine ⟨a.next _ a.busy, rfl, ⟨hQuiet.books hSteps hBooks ?_ hBooks.right, hQuiet.leaves hSteps (.inl rfl)⟩,
          rfl, h.makes.made, h.makes.busy⟩
        intro u j hMade
        rw [h.makes.made] at hMade
        cases hMade
        exact .inl ⟨.read, by rw [withLocks_self]; exact Locks.acquire_own hAcquire⟩
      · rcases hFail with hNext | hNone
        · exact absurd (a.disk.born _ (hBooks.named p t i h.makes.made).1) (Nat.not_lt_of_le hNext)
        · obtain ⟨q, u, hNot, hHolds, -⟩ := Locks.acquire_none hNone
          exact absurd (h.locked.alone hHolds) hNot
  apply hLock.bind
  exact fun ok => failUnless_accounted (fun _ _ _ h => h.2) (fun hFail a _ h => by rw [hFail] at h; cases h.1)

/-! ## Recording a size -/

/-- At work on the size of a file it has made, with figures that do not change meanwhile. -/
def Recording (p : Pid) (t : Word) (i : Nat) (φ : Nat → Nat → Prop) (a : Accounts Pid) : Prop :=
  Correct p (some (t, i)) a ∧ φ a.total (a.disk.content i).length

theorem recording_stable (t : Word) (i : Nat) (φ : Nat → Nat → Prop) :
    (accountContract Pid).Stable p (Recording p t i φ) := by
  apply stable_of
  rintro q a a' hNot hBooks h ⟨hCorrect, hFigures⟩
  refine ⟨h.correct hNot hCorrect, ?_⟩
  rw [h.content_eq hNot hBooks hCorrect.made, (h.figures hNot hCorrect.busy).1]
  exact hFigures

omit [DecidableEq Pid] in
theorem Recording.link {i : Nat} {φ : Nat → Nat → Prop} {a : Accounts Pid} (h : Recording p t i φ a) {c : Sys β}
    (hProper : a.disk.Proper p c) : AccountLink p (.create t data) c a := by
  refine ⟨hProper, ?_, fun _ => .inl ⟨_, h.1.locked⟩⟩
  intro u j hMade
  rw [h.1.made] at hMade
  cases hMade
  exact ⟨data, rfl⟩

theorem readInfo_recording (i : Nat) : Accounted limits p (.create t data) (Correct p (some (t, i)))
    (Program.sys .readInfo)
    (fun size => Recording p t i fun total _ => size = total) E := by
  apply accounted_sys (c := .readInfo) (correct_stable _)
  · exact fun a _ h => Recording.link (φ := fun _ _ => True) ⟨h, trivial⟩ trivial
  · rintro a choice _ _ hBooks h ⟨⟩ _
    exact ⟨a, rfl, ⟨hBooks, .refl p a⟩, h, h.right⟩

theorem stat_recording (i : Nat) (φ : Nat → Nat → Prop) :
    Accounted limits p (.create t data) (Recording p t i φ) (Program.sys (.stat t))
      (fun r a => ∃ size atime, r = some (size, atime) ∧ Recording p t i (fun total n => φ total n ∧ size = n) a)
        E := by
  apply accounted_sys (c := .stat t) (recording_stable t i φ)
  · exact fun a _ h => h.link trivial
  · rintro a choice _ _ hBooks h ⟨⟩ _
    refine ⟨a, rfl, ⟨hBooks, .refl p a⟩, ?_⟩
    rw [find_iff.mpr (hBooks.named p t i h.1.made).1]
    exact ⟨_, _, rfl, h.1, h.2, rfl⟩

theorem writeInfo_recording (i currentSize size : Nat) :
    Accounted limits p (.create t data) (Recording p t i fun total n => currentSize = total ∧ size = n)
      (Program.sys (.writeInfo ((currentSize + size) % ulonglong))) (fun _ => Idle p) E := by
  apply accounted_sys (c := .writeInfo ((currentSize + size) % ulonglong)) (recording_stable t i _)
  · exact fun a _ h => h.link trivial
  · rintro a choice _ _ hBooks ⟨hCorrect, rfl, rfl⟩ ⟨⟩ _
    have hRecorded := hBooks.recorded hCorrect.made hCorrect.busy
    have hFits : (a.total + (a.disk.content i).length) % ulonglong = a.total + (a.disk.content i).length :=
      Nat.mod_eq_of_lt hRecorded.1.infoBounded
    rw [hFits]
    exact ⟨_, rfl, hRecorded, noting_self, (Option.some_ne_none p).symm⟩

theorem updateCacheInfo_accounted (i : Nat) :
    Accounted limits p (.create t data) (Makes p t i) (updateCacheInfo t) (fun _ => Idle p) (Idle p) := by
  apply unlockingCache_accounted
  apply (lockCacheWrite_recording i).bind
  intro _
  apply (readInfo_recording i).bind
  intro currentSize
  apply (stat_recording i _).bind
  intro r
  cases r with
  | none => rintro a - ⟨size, atime, ⟨⟩, -⟩
  | some r =>
    obtain ⟨size, atime⟩ := r
    apply ((writeInfo_recording i currentSize size).weaken ?_).bind
    · intro _
      apply (unlockCache_accounted.weaken fun _ _ h => h.settled).bind
      exact fun _ => Contract.Meets.ret fun _ _ h => h
    · rintro a - ⟨size, atime, ⟨⟩, h⟩
      exact h

theorem create_accounted :
    Accounted limits p (.create t data) (Idle p) (create t data) (fun _ => Idle p) (Idle p) := by
  apply createAndLock_accounted.bind
  intro fd
  cases fd with
  | none => exact Contract.Meets.ret fun _ _ h => h
  | some i =>
    apply (writeAll_accounted i data).bind
    intro _
    apply (exclusiveToSharedLock_accounted i).bind
    intro _
    apply (updateCacheInfo_accounted i).bind
    exact fun _ => Contract.Meets.ret fun _ _ h => h

end

end Libdap.Cache
