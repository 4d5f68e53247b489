import Mathlib.Data.Fintype.Basic
import Libdap.Cache.PurgeBookkeeping
import Libdap.Cache.PurgeSafety

/-! # The recorded size

When nobody is in the middle of an operation, the cache info file has the sum of the files' sizes, as long as no
total is worked out while another process is about to record one without the lock, and no purge counts a file that
is still to be recorded.
-/

namespace Libdap.Cache
open Core Constraint CacheDisk Accounts
set_option autoImplicit false

/-! ## The condition -/

abbrev CacheProc := Option (CacheOp × Proc (Option Purge))

def finished : CacheProc → Bool
  | some (_, .call _ _) => false
  | _ => true

/-- About to record a size. -/
def recording : CacheProc → Bool
  | some (_, .call (.writeInfo _) _) => true
  | _ => false

/-- The file that the process is in the middle of making and recording. -/
def making : CacheProc → Option Word
  | some (.create target _, .call _ _) => some target
  | _ => none

def CacheDisk.emptyFile {Pid : Type} (s : CacheDisk Pid) (name : Word) : Bool :=
    (s.find name).all fun i => (s.content i).isEmpty

section
variable {Pid : Type} [DecidableEq Pid]

/-- The info file is locked for the total only while no other process is about to record it without that lock,
and the lock does not fail behind a new file with something in it; a purge of the directory does not find such a
file; and the sizes fit into an `unsigned long long`. -/
def AllowedCall (w : CacheWorld Pid) (p : Pid) (op : CacheOp) : {β : Type} → Sys β → Prop
  | _, .setLockInfo .write =>
    ((op.makes = true ∧ making (w.proc p) = none) ∨
      ∀ q, q ≠ p → recording (w.proc q) = true → w.shared.infoLocks.Holds q .write) ∧
    (w.shared.infoLocks.grants p .write = false → (making (w.proc p)).all w.shared.emptyFile = true)
  | _, .stat name => op.purges = true → ∀ q, q ≠ p → making (w.proc q) = some name → w.shared.emptyFile name = true
  | _, .write _ data => w.shared.size + data.length < ulonglong
  | _, _ => True

def AllowedTurn (limits : CacheLimits) (w : CacheWorld Pid) (e : Turn Pid CacheOp Choice) : Prop :=
  match (cacheMachine Pid limits).current w e with
  | (op, .call c _) => AllowedCall w e.pid op c
  | _ => True

instance [Fintype Pid] (w : CacheWorld Pid) (p : Pid) (op : CacheOp) {β : Type} (c : Sys β) :
    Decidable (AllowedCall w p op c) :=
  match c with
  | .setLockInfo .write => inferInstanceAs (Decidable (_ ∧ _))
  | .stat _ => inferInstanceAs (Decidable (_ → _))
  | .write _ _ => inferInstanceAs (Decidable (_ < _))
  | .setLockInfo .read | .unlockInfo | .readInfo | .writeInfo _ | .openFile _ | .createFile _ | .setLockWait _
    _ | .setLock _ _
  | .close _ | .unlink _ | .readdir => .isTrue trivial

instance [Fintype Pid] (limits : CacheLimits) (w : CacheWorld Pid) (e : Turn Pid CacheOp Choice) :
    Decidable (AllowedTurn limits w e) :=
  match h : (cacheMachine Pid limits).current w e with
  | (op, .call c _) => decidable_of_iff (AllowedCall w e.pid op c) (by rw [AllowedTurn, h])
  | (_, .ret _) => .isTrue (by rw [AllowedTurn, h]; trivial)
  | (_, .throw _) => .isTrue (by rw [AllowedTurn, h]; trivial)

end

/-! ## The processes keep the books -/

section
variable {Pid : Type} [DecidableEq Pid] {limits : CacheLimits} {p : Pid} {op : CacheOp}

theorem program_accounted : Accounted limits p op (Idle p) (op.program limits) (fun _ => Idle p) (Idle p) := by
  have hEnd {α : Type} {x : Proc α} {f : α → Option Purge}
      (h : Accounted limits p op (Idle p) x (fun _ => Idle p) (Idle p)) :
      Accounted limits p op (Idle p) (do let r ← x; pure (f r)) (fun _ => Idle p) (Idle p) := by
    apply h.bind
    exact fun _ => Contract.Meets.ret fun _ _ hIdle => hIdle
  cases op with
  | create target data => exact hEnd (f := fun _ => none) create_accounted
  | getReadLock target => exact hEnd (f := fun _ => none) (getReadLock_idle target)
  | purgeFile file => exact hEnd (f := fun _ => none) (purgeFile_accounted rfl file)
  | updateAndPurge newFile => exact hEnd (f := some) (updateAndPurge_accounted rfl rfl newFile)
  | getCacheSize => exact hEnd (f := fun _ => none) getCacheSize_idle
  | unlockAndClose fd => exact hEnd (f := fun _ => none) (Idle.quiet (c := .close fd) trivial)

/-- A process that is at work on the size, and one that is making a file, are in the middle of an operation. -/
theorem seen_busy {a : Accounts Pid} {q : Pid} {proc : CacheProc} (h : (accountContract Pid).Seen Idle q a proc)
    (hBusy : a.busy = some q) : (∃ t, a.disk.infoLocks.Holds q t) ∨ recording proc = true := by
  cases h with
  | none h => exact absurd hBusy h.busy
  | ret _ _ h => exact absurd hBusy h.busy
  | throw _ _ h => exact absurd hBusy h.busy
  | call _ c _ h =>
    rcases h.busy hBusy with hLocked | hRecords
    · exact .inl hLocked
    · cases c with
      | writeInfo size => exact .inr rfl
      | _ => cases hRecords

theorem seen_made {a : Accounts Pid} {q : Pid} {proc : CacheProc} (h : (accountContract Pid).Seen Idle q a proc)
    {t : Word} {i : Nat}
    (hMade : a.made q = some (t, i)) : making proc = some t := by
  cases h with
  | none h => cases h.made.symm.trans hMade
  | ret _ _ h => cases h.made.symm.trans hMade
  | throw _ _ h => cases h.made.symm.trans hMade
  | call _ _ _ h =>
    obtain ⟨data, rfl⟩ := h.making t i hMade
    rfl

omit [DecidableEq Pid] in
theorem emptyFile_content {s : CacheDisk Pid} {t : Word} {i : Nat} (hEntry : (t, i) ∈ s.entries)
    (h : s.emptyFile t = true) :
    s.content i = [] := by
  rw [emptyFile, find_iff.mpr hEntry] at h
  simpa using h

theorem allowed_cond {w : CacheWorld Pid} {a : Accounts Pid} (hBooks : Books a) (hReal : a.disk = w.shared)
    (hSeen : ∀ q, (accountContract Pid).Seen Idle q a (w.proc q)) {β : Type} {c : Sys β} (h : AllowedCall w p op c) :
    AccountCond p op a c := by
  have hEmpty : ∀ q t i, a.made q = some (t, i) → w.shared.emptyFile t = true → a.disk.content i = [] := by
    intro q t i hMade hFile
    rw [← hReal] at hFile
    exact emptyFile_content (hBooks.named q t i hMade).1 hFile
  cases c with
  | setLockInfo type =>
    cases type with
    | read => trivial
    | write =>
      refine ⟨h.1.imp ?_ ?_, ?_⟩
      · rintro ⟨hMakes, hNone⟩
        refine ⟨hMakes, ?_⟩
        cases hMade : a.made p with
        | none => rfl
        | some file =>
          rw [seen_made (hSeen p) hMade] at hNone
          cases hNone
      · intro hOthers q hNot hBusy
        rcases seen_busy (hSeen q) hBusy with hLocked | hRecords
        · exact hLocked
        · exact ⟨_, by rw [hReal]; exact hOthers q hNot hRecords⟩
      · intro hGrants t i hMade
        rw [hReal] at hGrants
        have hAll := h.2 hGrants
        rw [seen_made (hSeen p) hMade] at hAll
        exact hEmpty p t i hMade hAll
  | stat name =>
    exact fun hPurges q i hNot hMade => hEmpty q name i hMade (h hPurges q hNot (seen_made (hSeen q) hMade))
  | write fd data =>
    change a.disk.size + data.length < ulonglong
    rw [hReal]
    exact h
  | _ => trivial

theorem accounts_kept : (accountContract Pid).Kept (cacheMachine Pid limits)
    (AllowedTurn limits) Idle fun p _ _ => Idle p where
  idle_stable _ := idle_stable
  post_stable _ _ _ := idle_stable
  post_idle _ _ _ _ h := h
  meets _ _ := program_accounted
  cond w e a op β c k hBooks hReal hSeen hCurrent hAllowed := by
    rw [AllowedTurn, hCurrent] at hAllowed
    exact allowed_cond hBooks hReal hSeen hAllowed

/-- Nobody is at work, and the recorded size is right. -/
structure SizeRight (w : CacheWorld Pid) : Prop where
  finished : ∀ p, finished (w.proc p) = true
  right : w.shared.info = w.shared.size
  bounded : w.shared.size < ulonglong

omit [DecidableEq Pid] in
theorem total_of_settled {a : Accounts Pid} (h : ∀ p, Idle p a) : a.total = a.disk.size := by
  apply sum_congr (f := a.counted) (g := fun i => (a.disk.content i).length)
  rintro e -
  apply counted_recorded
  rintro ⟨q, t, hq⟩
  rw [(h q).made] at hq
  cases hq

theorem start_holds {w : CacheWorld Pid} (h : SizeRight w) :
    ∃ a, (accountContract Pid).Holds (cacheMachine Pid limits) Idle (fun p _ _ => Idle p) w a := by
  have hIdle : ∀ p, Idle p (⟨w.shared, fun _ => none, none⟩ : Accounts Pid) :=
      fun p => ⟨rfl, (Option.some_ne_none p).symm⟩
  have hTotal := total_of_settled hIdle
  have hBooks : Books (⟨w.shared, fun _ => none, none⟩ : Accounts Pid) :=
    ⟨nofun, nofun, fun _ => h.right.trans hTotal.symm, h.bounded, by
      change w.shared.info < ulonglong
      rw [h.right]
      exact h.bounded⟩
  refine ⟨⟨w.shared, fun _ => none, none⟩, rfl, hBooks, fun p => ?_⟩
  have hDone := h.finished p
  cases hProc : w.proc p with
  | none => exact hIdle p
  | some r =>
    obtain ⟨op, prog⟩ := r
    rw [hProc] at hDone
    cases prog with
    | ret r => exact ⟨hBooks, hIdle p⟩
    | throw f => exact ⟨hBooks, hIdle p⟩
    | call c k => cases hDone

/-- Whenever no operation is in progress, the recorded size is right. -/
theorem recorded_size {w : CacheWorld Pid} (h : (cacheMachine Pid limits).Reached SizeRight (AllowedTurn limits) w)
    (hDone : ∀ p, finished (w.proc p) = true) : w.shared.info = w.shared.size := by
  obtain ⟨a, hHolds⟩ := accounts_kept.reached Leaves.refl (fun _ hStart => start_holds hStart) h
  have hIdle : ∀ p, Idle p a := by
    intro p
    have hReady := hHolds.ready p
    have hFinished := hDone p
    cases hProc : w.proc p with
    | none =>
      rw [hProc] at hReady
      exact hReady
    | some r =>
      obtain ⟨op, prog⟩ := r
      rw [hProc] at hReady hFinished
      cases prog with
      | ret r => exact hReady.2
      | throw f => exact hReady.2
      | call c k => cases hFinished
  have hNone : a.busy = none := by
    cases hBusy : a.busy with
    | none => rfl
    | some p => exact absurd hBusy (hIdle p).busy
  have hReal : a.disk = w.shared := hHolds.real
  rw [← hReal, hHolds.inv.right hNone, total_of_settled hIdle]

end

/-! ## Two processes -/

def emptyCache : CacheDisk Bool where
  entries := []
  content _ := []
  locks _ := .none
  next := 0
  info := 0
  infoLocks := .none
  names := .nil
  inodes := .nil
  born := nofun
  unborn _ _ := ⟨rfl, rfl⟩

theorem emptyCache_right : SizeRight (worldOf emptyCache) := ⟨fun _ => rfl, rfl, by decide⟩

def tenBytes (name : String) : CacheOp := .create name.toList [List.replicate 10 0]

/-- One process asks for the size while the other makes a file, and then removes it. -/
def takingTurns : List (Turn Bool CacheOp Choice) :=
  turns true (tenBytes "a") 5 ++ turns false .getCacheSize 3 ++ turns true (tenBytes "a") 6 ++
    turns true (.unlockAndClose 0) 1 ++ turns false (.purgeFile "a".toList) 11 ++ turns true (tenBytes "b") 11

theorem reached_takingTurns {w : CacheWorld Bool}
    (h : (cacheMachine Bool fiftyOfHundred).run (AllowedTurn fiftyOfHundred) (worldOf emptyCache) takingTurns =
      some w) :
    (cacheMachine Bool fiftyOfHundred).Reached SizeRight (AllowedTurn fiftyOfHundred) w :=
  (Machine.Reached.start emptyCache_right).run h

theorem size_of_turns : ∃ w, (cacheMachine Bool fiftyOfHundred).run (AllowedTurn fiftyOfHundred) (worldOf emptyCache)
    takingTurns = some w ∧ w.shared.info = 10 ∧ w.shared.info = w.shared.size :=
  ⟨_, rfl, rfl, recorded_size (reached_takingTurns rfl) (by decide)⟩

/-- A file is counted by the purge of another process before it is recorded, and then once more; and a file that is
recorded between the two halves of a `purge_file` is lost. -/
theorem size_wrong : (∃ w, (cacheMachine Bool fiftyOfHundred).run (fun _ _ => True) (worldOf emptyCache)
      (turns true (tenBytes "b") 5 ++ turns false (.updateAndPurge "c".toList) 5 ++ turns true (tenBytes "b") 6) =
        some w ∧
    (∀ p, finished (w.proc p) = true) ∧ w.shared.info = 20 ∧ w.shared.size = 10) ∧
  ∃ w, (cacheMachine Bool fiftyOfHundred).run (fun _ _ => True) (worldOf emptyCache)
      (turns true (tenBytes "a") 11 ++ turns true (.unlockAndClose 0) 1 ++ turns false (.purgeFile "a".toList) 9 ++
        turns true (tenBytes "c") 11 ++ turns false (.purgeFile "a".toList) 2) = some w ∧
    (∀ p, finished (w.proc p) = true) ∧ w.shared.info = 0 ∧ w.shared.size = 10 :=
  ⟨⟨_, rfl, by decide, rfl, rfl⟩, _, rfl, by decide, rfl, rfl⟩

end Libdap.Cache
