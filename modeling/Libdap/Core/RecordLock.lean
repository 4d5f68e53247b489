import Mathlib.Data.List.Basic

/-! # Locks that belong to processes

The advisory locks of `fcntl` on one file. A process has at most one lock on a file and never conflicts with
its own: a new lock takes the place of the old one.
-/

namespace Libdap.Core
set_option autoImplicit false

inductive LockType
  | read
  | write
  deriving DecidableEq, Repr

structure Locks (Pid : Type) where
  held : List (Pid × LockType)
  one : ∀ a ∈ held, ∀ b ∈ held, a.1 = b.1 → a = b
  shared : ∀ a ∈ held, ∀ b ∈ held, a.1 ≠ b.1 → a.2 = .read

namespace Locks

variable {Pid : Type}

def Holds (l : Locks Pid) (p : Pid) (t : LockType) : Prop := (p, t) ∈ l.held

def none : Locks Pid := ⟨[], nofun, nofun⟩

@[simp] theorem none_holds (p : Pid) (t : LockType) : ¬ (none : Locks Pid).Holds p t := List.not_mem_nil

theorem Holds.type_eq {l : Locks Pid} {p : Pid} {t u : LockType} (h : l.Holds p t) (h' : l.Holds p u) : t = u :=
  (Prod.mk.inj (l.one _ h _ h' rfl)).2

/-- Who has the exclusive lock is alone. -/
theorem Holds.alone {l : Locks Pid} {p q : Pid} {t : LockType} (h : l.Holds p .write) (h' : l.Holds q t) : q = p := by
  by_contra hNot
  have hRead := l.shared _ h _ h' (Ne.symm hNot)
  cases hRead

variable [DecidableEq Pid]

instance (l : Locks Pid) (p : Pid) (t : LockType) : Decidable (l.Holds p t) := inferInstanceAs (Decidable (_ ∈ _))

/-- The locks of the other processes. -/
def others (l : Locks Pid) (p : Pid) : List (Pid × LockType) := l.held.filter fun a => a.1 ≠ p

def grants (l : Locks Pid) (p : Pid) (t : LockType) : Bool :=
  (l.others p).all fun a => t = .read && a.2 = .read

theorem mem_others {l : Locks Pid} {p : Pid} {a : Pid × LockType} : a ∈ l.others p ↔ a ∈ l.held ∧ a.1 ≠ p := by
  simp [others]

theorem grants_iff {l : Locks Pid} {p : Pid} {t : LockType} :
    l.grants p t = true ↔ ∀ q u, q ≠ p → l.Holds q u → t = .read ∧ u = .read := by
  simp only [grants, List.all_eq_true, mem_others, Bool.and_eq_true, decide_eq_true_eq]
  constructor
  · intro h q u hNot hq
    exact h (q, u) ⟨hq, hNot⟩
  · rintro h ⟨q, u⟩ ⟨hq, hNot⟩
    exact h q u hNot hq

/-- The lock, unless another process stands in the way. -/
def acquire (l : Locks Pid) (p : Pid) (t : LockType) : Option (Locks Pid) :=
  if h : l.grants p t then
    some {
      held := (p, t) :: l.others p
      one := by
        simp only [List.mem_cons, mem_others]
        rintro a (rfl | ⟨ha, hap⟩) b (rfl | ⟨hb, hbp⟩) hSame
        · rfl
        · exact absurd hSame.symm hbp
        · exact absurd hSame hap
        · exact l.one a ha b hb hSame
      shared := by
        simp only [List.mem_cons, mem_others]
        rintro a (rfl | ⟨ha, hap⟩) b (rfl | ⟨hb, hbp⟩) hNot
        · exact absurd rfl hNot
        · exact (grants_iff.mp h b.1 b.2 hbp hb).1
        · exact (grants_iff.mp h a.1 a.2 hap ha).2
        · exact l.shared a ha b hb hNot }
  else Option.none

def release (l : Locks Pid) (p : Pid) : Locks Pid where
  held := l.others p
  one a ha b hb := l.one a (mem_others.mp ha).1 b (mem_others.mp hb).1
  shared a ha b hb := l.shared a (mem_others.mp ha).1 b (mem_others.mp hb).1

@[simp] theorem release_holds {l : Locks Pid} {p q : Pid} {t : LockType} :
    (l.release p).Holds q t ↔ l.Holds q t ∧ q ≠ p := mem_others

theorem acquire_granted {l l' : Locks Pid} {p : Pid} {t : LockType} (h : l.acquire p t = some l') :
    l.grants p t = true := by
  rw [acquire] at h
  split at h
  · assumption
  · cases h

theorem acquire_holds {l l' : Locks Pid} {p q : Pid} {t u : LockType} (h : l.acquire p t = some l') :
    l'.Holds q u ↔ (q = p ∧ u = t) ∨ (q ≠ p ∧ l.Holds q u) := by
  rw [acquire] at h
  split at h
  · cases h
    simp only [Holds, List.mem_cons, mem_others, Prod.mk.injEq]
    apply or_congr Iff.rfl
    exact and_comm
  · cases h

theorem acquire_own {l l' : Locks Pid} {p : Pid} {t : LockType} (h : l.acquire p t = some l') : l'.Holds p t :=
  (acquire_holds h).mpr (.inl ⟨rfl, rfl⟩)

theorem acquire_other {l l' : Locks Pid} {p q : Pid} {t u : LockType} (h : l.acquire p t = some l') (hNot : q ≠ p) :
    l'.Holds q u ↔ l.Holds q u := by
  rw [acquire_holds h]
  simp [hNot]

theorem release_other {l : Locks Pid} {p q : Pid} {t : LockType} (hNot : q ≠ p) :
    (l.release p).Holds q t ↔ l.Holds q t := by
  simp [hNot]

/-- An exclusive lock is only granted where no other process has one of either kind. -/
theorem acquire_write_free {l l' : Locks Pid} {p q : Pid} {t : LockType} (h : l.acquire p .write = some l')
    (hq : l.Holds q t) : q = p := by
  by_contra hNot
  cases (grants_iff.mp (acquire_granted h) q t hNot hq).1

theorem acquire_read_free {l l' : Locks Pid} {p q : Pid} (h : l.acquire p .read = some l') (hq : l.Holds q .write) :
    q = p := by
  by_contra hNot
  cases (grants_iff.mp (acquire_granted h) q .write hNot hq).2

/-- What stands in the way. -/
theorem acquire_none {l : Locks Pid} {p : Pid} {t : LockType} (h : l.acquire p t = Option.none) :
    ∃ q u, q ≠ p ∧ l.Holds q u ∧ ¬ (t = .read ∧ u = .read) := by
  rw [acquire] at h
  split at h
  · cases h
  · rename_i hNot
    rw [grants_iff] at hNot
    push Not at hNot
    obtain ⟨q, u, hq, hHolds, hKinds⟩ := hNot
    exact ⟨q, u, hq, hHolds, fun hRead => hKinds hRead.1 hRead.2⟩

end Locks

end Libdap.Core
