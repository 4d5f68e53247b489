/-! # How a call ends other than by returning

The library's two exception classes with their texts, the exceptions of the C++ library that the
modelled code can meet, and the accesses C++ gives no meaning to.
-/

namespace Libdap.Core
set_option autoImplicit false

inductive Fault
  | Error (msg : String)
  | InternalErr (msg : String)
  /-- `std::length_error` or `std::bad_alloc` for a block of an impossible size. -/
  | lengthError
  /-- `std::ios::failure`, on a stream that was told to throw. -/
  | iosFailure
  /-- A load or store outside the object. -/
  | outOfBounds
  /-- An operation on values for which C++ defines no result. -/
  | undefined
  deriving DecidableEq, Repr

/-- What a returning sequence of two calls says of each of them. -/
@[simp] theorem ok_bind {ε α β : Type} (val : α) (f : α → Except ε β) :
    (Except.ok val >>= f) = f val := rfl

@[simp] theorem error_bind {ε α β : Type} (e : ε) (f : α → Except ε β) :
    (Except.error e >>= f) = Except.error e := rfl

theorem bind_eq_ok {ε α β : Type} {x : Except ε α} {f : α → Except ε β} {b : β}
    (h : x >>= f = .ok b) : ∃ a, x = .ok a ∧ f a = .ok b := by
  cases x with
  | error e => cases h
  | ok a => exact ⟨a, rfl, h⟩

theorem bind_eq_error {ε α β : Type} {x : Except ε α} {f : α → Except ε β} {e : ε}
    (h : x >>= f = .error e) : x = .error e ∨ ∃ a, x = .ok a ∧ f a = .error e := by
  cases x with
  | error e' =>
    cases h
    exact .inl rfl
  | ok a => exact .inr ⟨a, rfl, h⟩

end Libdap.Core
