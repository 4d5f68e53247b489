/-! # Loops with enough rounds

A loop that need not end is run for a number of rounds. What it settles to is the result of every run that is given
enough of them.
-/

namespace Libdap.Core
set_option autoImplicit false

variable {α β ε : Type} {x y : Nat → α} {r r' : α}

@[simp] theorem except_ok_bind (a : α) (f : α → Except ε β) : (Except.ok a >>= f) = f a := rfl

@[simp] theorem except_error_bind (e : ε) (f : α → Except ε β) : (Except.error e >>= f) = .error e := rfl

def Settles (x : Nat → α) (r : α) : Prop := ∃ n, ∀ m, n ≤ m → x m = r

namespace Settles

theorem unique (h : Settles x r) (h' : Settles x r') : r = r' := by
  obtain ⟨n, hRun⟩ := h
  obtain ⟨n', hRun'⟩ := h'
  rw [← hRun (n + n') (Nat.le_add_right _ _), hRun' (n + n') (Nat.le_add_left _ _)]

theorem always (h : ∀ n, x n = r) : Settles x r := ⟨0, fun n _ => h n⟩

theorem shift (h : Settles (fun n => x (n + 1)) r) : Settles x r := by
  obtain ⟨n, hRun⟩ := h
  refine ⟨n + 1, fun m hm => ?_⟩
  obtain ⟨k, rfl⟩ : ∃ k, m = k + 1 := ⟨m - 1, by omega⟩
  exact hRun k (by omega)

theorem shift_iff : Settles (fun n => x (n + 1)) r ↔ Settles x r := by
  refine ⟨shift, ?_⟩
  rintro ⟨n, hRun⟩
  exact ⟨n, fun m hm => hRun (m + 1) (by omega)⟩

theorem map (h : Settles x r) (f : α → β) : Settles (fun n => f (x n)) (f r) := by
  obtain ⟨n, hRun⟩ := h
  exact ⟨n, fun m hm => congrArg f (hRun m hm)⟩

theorem of_eq (h : Settles x r) (hSame : ∀ n, x n = y n) : Settles y r := by
  obtain ⟨n, hRun⟩ := h
  exact ⟨n, fun m hm => (hSame m).symm.trans (hRun m hm)⟩

theorem bind {x : Nat → Except ε α} {f : Nat → α → Except ε β} {a : α} {r : Except ε β} (hFirst : Settles x (.ok a))
    (hRest : Settles (fun n => f n a) r) : Settles (fun n => x n >>= f n) r := by
  obtain ⟨n, hRun⟩ := hFirst
  obtain ⟨n', hRun'⟩ := hRest
  refine ⟨n + n', fun m hm => ?_⟩
  change x m >>= f m = r
  rw [hRun m (by omega)]
  exact hRun' m (by omega)

theorem bind_error {x : Nat → Except ε α} {f : Nat → α → Except ε β} {e : ε} (h : Settles x (.error e)) :
    Settles (fun n => x n >>= f n) (.error e) := by
  obtain ⟨n, hRun⟩ := h
  refine ⟨n, fun m hm => ?_⟩
  change x m >>= f m = .error e
  rw [hRun m hm]
  rfl

end Settles

end Libdap.Core
