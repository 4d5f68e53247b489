import Libdap.Core.Call

/-! # How a call ends

What holds when a call returns and when it throws, from one state on.
-/

namespace Libdap.Core.Call
set_option autoImplicit false

variable {σ α β : Type} {s : σ} {Q Q' : α → σ → Prop} {R : β → σ → Prop} {E E' : Fault → σ → Prop}

def Ends (x : Call σ α) (s : σ) (Q : α → σ → Prop) (E : Fault → σ → Prop) : Prop :=
  match x s with
  | .ok a t => Q a t
  | .error f t => E f t

namespace Ends

theorem ok {x : Call σ α} (h : Ends x s Q E) {a : α} {t : σ} (hRun : x s = .ok a t) : Q a t := by
  rw [Ends, hRun] at h
  exact h

theorem error {x : Call σ α} (h : Ends x s Q E) {f : Fault} {t : σ} (hRun : x s = .error f t) : E f t := by
  rw [Ends, hRun] at h
  exact h

theorem pure {a : α} (h : Q a s) : Ends (Pure.pure a) s Q E := h

theorem throw {f : Fault} (h : E f s) : Ends (MonadExcept.throw f : Call σ α) s Q E := h

theorem modify {f : σ → σ} {Q : Unit → σ → Prop} (h : Q () (f s)) :
    Ends (MonadState.modifyGet fun t => ((), f t)) s Q E := h

theorem bind {x : Call σ α} {f : α → Call σ β} (hx : Ends x s Q E) (hf : ∀ a t, Q a t → Ends (f a) t R E) :
    Ends (x >>= f) s R E := by
  rw [Ends]
  cases hRun : x s with
  | ok a t =>
    rw [bind_of_ok hRun]
    exact hf a t (hx.ok hRun)
  | error e t =>
    rw [bind_error.mpr (.inl hRun)]
    exact hx.error hRun

theorem conseq {x : Call σ α} (h : Ends x s Q E) (hOk : ∀ a t, Q a t → Q' a t) (hError : ∀ f t, E f t → E' f t) :
    Ends x s Q' E' := by
  rw [Ends] at h ⊢
  split
  · rename_i hRun
    rw [hRun] at h
    exact hOk _ _ h
  · rename_i hRun
    rw [hRun] at h
    exact hError _ _ h

end Ends

end Libdap.Core.Call

/-! ## How a computation that may fail ends

What holds of the result, and what of the error.
-/

namespace Libdap.Core
set_option autoImplicit false

variable {ε α β : Type} {Q Q' : α → Prop} {R : β → Prop} {E E' : ε → Prop}

def Yields (r : Except ε α) (Q : α → Prop) (E : ε → Prop) : Prop :=
  match r with
  | .ok a => Q a
  | .error e => E e

namespace Yields

theorem ok {a : α} (h : Q a) : Yields (.ok a) Q E := h

theorem error {e : ε} (h : E e) : Yields (.error e) Q E := h

theorem bind {r : Except ε α} {f : α → Except ε β} (hr : Yields r Q E) (hf : ∀ a, Q a → Yields (f a) R E) :
    Yields (r >>= f) R E := by
  cases r with
  | ok a => exact hf a hr
  | error e => exact hr

theorem conseq {r : Except ε α} (h : Yields r Q E) (hOk : ∀ a, Q a → Q' a) (hError : ∀ e, E e → E' e) :
    Yields r Q' E' := by
  cases r with
  | ok a => exact hOk a h
  | error e => exact hError e h

theorem weaken {r : Except ε α} (h : Yields r Q E) (hOk : ∀ a, Q a → Q' a) : Yields r Q' E :=
    h.conseq hOk fun _ he => he

theorem of_ok {r : Except ε α} (h : Yields r Q E) {a : α} (hRun : r = .ok a) : Q a := by
  subst hRun
  exact h

theorem of_error {r : Except ε α} (h : Yields r Q E) {e : ε} (hRun : r = .error e) : E e := by
  subst hRun
  exact h

theorem ite {c : Prop} [Decidable c] {x y : Except ε α} (hx : c → Yields x Q E) (hy : ¬ c → Yields y Q E) :
    Yields (if c then x else y) Q E := by
  split
  · rename_i hc
    exact hx hc
  · rename_i hc
    exact hy hc

end Yields

end Libdap.Core
