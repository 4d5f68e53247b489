import Libdap.Core.Fault

/-! # Calls on an object that may throw

What a call did up to the point where it threw is left behind, so a call ends in a state in either
case.
-/

namespace Libdap.Core
set_option autoImplicit false

abbrev Call (σ : Type) (α : Type) := EStateM Fault σ α

theorem get_bind {ε σ α : Type} (f : σ → EStateM ε σ α) (s : σ) : (get >>= f) s = f s s := rfl

theorem modify_bind {ε σ α : Type} (f : σ → σ) (x : PUnit → EStateM ε σ α) (s : σ) : (modify f >>= x) s = x ⟨⟩ (f s) :=
    rfl

namespace Call

variable {σ τ α β : Type}

theorem bind_ok {x : Call σ α} {f : α → Call σ β} {s s' : σ} {b : β} :
    (x >>= f) s = .ok b s' ↔ ∃ a s₁, x s = .ok a s₁ ∧ f a s₁ = .ok b s' := by
  change EStateM.bind x f s = .ok b s' ↔ _
  rw [EStateM.bind]
  cases h : x s with
  | ok a s₁ =>
    constructor
    · intro hNext
      exact ⟨a, s₁, rfl, hNext⟩
    · rintro ⟨_, _, hFirst, hNext⟩
      cases hFirst
      exact hNext
  | error e s₁ =>
    constructor
    · intro hNext
      cases hNext
    · rintro ⟨_, _, hFirst, _⟩
      cases hFirst

/-- Two calls after the same first one are the same if they are after what it can return. -/
theorem bind_congr_ok {x : Call σ α} {f g : α → Call σ β} (h : ∀ s a t, x s = .ok a t → f a t = g a t) :
    x >>= f = x >>= g := by
  funext s
  change EStateM.bind x f s = EStateM.bind x g s
  rw [EStateM.bind, EStateM.bind]
  cases hRun : x s with
  | ok a t => exact h s a t hRun
  | error e t => rfl

theorem bind_of_ok {x : Call σ α} {f : α → Call σ β} {s s' : σ} {a : α} (h : x s = .ok a s') :
    (x >>= f) s = f a s' := by
  change EStateM.bind x f s = _
  rw [EStateM.bind, h]

theorem bind_of_error {x : Call σ α} {f : α → Call σ β} {s s' : σ} {e : Fault} (h : x s = .error e s') :
    (x >>= f) s = .error e s' := by
  change EStateM.bind x f s = _
  rw [EStateM.bind, h]

theorem bind_error {x : Call σ α} {f : α → Call σ β} {s s' : σ} {e : Fault} :
    (x >>= f) s = .error e s' ↔
      x s = .error e s' ∨ ∃ a s₁, x s = .ok a s₁ ∧ f a s₁ = .error e s' := by
  change EStateM.bind x f s = .error e s' ↔ _
  rw [EStateM.bind]
  cases h : x s with
  | ok a s₁ =>
    constructor
    · intro hNext
      exact .inr ⟨a, s₁, rfl, hNext⟩
    · rintro (hFirst | ⟨_, _, hFirst, hNext⟩)
      · cases hFirst
      · cases hFirst
        exact hNext
  | error e₁ s₁ =>
    constructor
    · intro hNext
      cases hNext
      exact .inl rfl
    · rintro (hFirst | ⟨_, _, hFirst, _⟩)
      · cases hFirst
        rfl
      · cases hFirst

theorem pure_ok {a b : α} {s s' : σ} : (pure a : Call σ α) s = .ok b s' ↔ b = a ∧ s' = s := by
  constructor
  · intro h
    cases h
    exact ⟨rfl, rfl⟩
  · rintro ⟨rfl, rfl⟩
    rfl

theorem throw_not_ok {f : Fault} {b : α} {s s' : σ} : (throw f : Call σ α) s ≠ .ok b s' :=
  fun h => nomatch h

theorem tryCatch_ok {x : Call σ α} {handle : Fault → Call σ α} {s s' : σ} {a : α} :
    (tryCatch x handle) s = .ok a s' ↔ x s = .ok a s' ∨ ∃ f s₁, x s = .error f s₁ ∧ handle f s₁ = .ok a s' := by
  change EStateM.tryCatch x handle s = .ok a s' ↔ _
  delta EStateM.tryCatch
  dsimp only
  cases h : x s with
  | ok b s₁ =>
    constructor
    · exact Or.inl
    · rintro (hFirst | ⟨_, _, hFirst, _⟩)
      · exact hFirst
      · cases hFirst
  | error f s₁ =>
    constructor
    · intro hHandled
      exact .inr ⟨f, s₁, rfl, hHandled⟩
    · rintro (hFirst | ⟨_, _, hFirst, hHandled⟩)
      · cases hFirst
      · cases hFirst
        exact hHandled

theorem tryCatch_error {x : Call σ α} {handle : Fault → Call σ α} {s s' : σ} {f : Fault} :
    (tryCatch x handle) s = .error f s' ↔ ∃ g s₁, x s = .error g s₁ ∧ handle g s₁ = .error f s' := by
  change EStateM.tryCatch x handle s = .error f s' ↔ _
  delta EStateM.tryCatch
  dsimp only
  cases h : x s with
  | ok b s₁ =>
    constructor
    · intro hHandled
      cases hHandled
    · rintro ⟨_, _, hFirst, _⟩
      cases hFirst
  | error g s₁ =>
    constructor
    · intro hHandled
      exact ⟨g, s₁, rfl, hHandled⟩
    · rintro ⟨_, _, hFirst, hHandled⟩
      cases hFirst
      exact hHandled

/-- A call that does not look at the state. -/
def ofExcept : Except Fault α → Call σ α
  | .ok a => pure a
  | .error f => throw f

theorem ofExcept_ok {r : Except Fault α} {a : α} {s s' : σ} :
    (ofExcept r : Call σ α) s = .ok a s' ↔ r = .ok a ∧ s' = s := by
  cases r with
  | ok b =>
    rw [ofExcept, pure_ok]
    constructor
    · rintro ⟨rfl, rfl⟩
      exact ⟨rfl, rfl⟩
    · rintro ⟨h, rfl⟩
      cases h
      exact ⟨rfl, rfl⟩
  | error f =>
    constructor
    · intro h
      cases h
    · rintro ⟨h, -⟩
      cases h

theorem ofExcept_bind_of_ok {r : Except Fault α} {a : α} (h : r = .ok a) (f : α → Call σ β) :
    ofExcept r >>= f = f a := by
  rw [h]
  rfl

theorem ofExcept_bind_of_error {r : Except Fault α} {e : Fault} (h : r = .error e) (f : α → Call σ β) (s : σ) :
    (ofExcept r >>= f) s = .error e s := by
  rw [h]
  rfl

/-- A call on a part of the state. -/
def on (get : σ → τ) (set : σ → τ → σ) (x : Call τ α) : Call σ α := fun s =>
  match x (get s) with
  | .ok a t => .ok a (set s t)
  | .error f t => .error f (set s t)

theorem on_ok {get : σ → τ} {set : σ → τ → σ} {x : Call τ α} {s s' : σ} {a : α} :
    on get set x s = .ok a s' ↔ ∃ t, x (get s) = .ok a t ∧ s' = set s t := by
  rw [on]
  cases h : x (get s) with
  | ok b t =>
    constructor
    · intro hOn
      cases hOn
      exact ⟨t, rfl, rfl⟩
    · rintro ⟨_, hCall, rfl⟩
      cases hCall
      rfl
  | error f t =>
    constructor
    · intro hOn
      cases hOn
    · rintro ⟨_, hCall, _⟩
      cases hCall

theorem on_error {get : σ → τ} {set : σ → τ → σ} {x : Call τ α} {s s' : σ} {e : Fault} :
    (on get set x s : EStateM.Result Fault σ α) = .error e s' ↔
      ∃ t, x (get s) = .error e t ∧ s' = set s t := by
  rw [on]
  cases h : x (get s) with
  | ok b t =>
    constructor
    · intro hOn
      cases hOn
    · rintro ⟨_, hCall, _⟩
      cases hCall
  | error f t =>
    constructor
    · intro hOn
      cases hOn
      exact ⟨t, rfl, rfl⟩
    · rintro ⟨_, hCall, rfl⟩
      cases hCall
      rfl

/-- Every fault that the call can end in is an `Error` of the library. -/
def ThrowsError (x : Call σ α) : Prop :=
  ∀ s s' f, x s = .error f s' → ∃ msg, f = .Error msg

theorem ThrowsError.pure (a : α) : ThrowsError (Pure.pure a : Call σ α) :=
  fun _ _ _ h => nomatch h

theorem ThrowsError.throw (msg : String) : ThrowsError (MonadExcept.throw (Fault.Error msg) : Call σ α) := by
  intro s s' f h
  cases h
  exact ⟨msg, rfl⟩

theorem ThrowsError.bind {x : Call σ α} {f : α → Call σ β} (hx : ThrowsError x)
    (hf : ∀ a, ThrowsError (f a)) : ThrowsError (x >>= f) := by
  intro s s' e h
  change EStateM.bind x f s = .error e s' at h
  rw [EStateM.bind] at h
  cases hFirst : x s with
  | ok a s₁ =>
    rw [hFirst] at h
    exact hf a s₁ s' e h
  | error e₁ s₁ =>
    rw [hFirst] at h
    cases h
    exact hx s s' _ hFirst

end Call

end Libdap.Core

/-! ## Calls that change nothing that is looked at

Two states look alike when they differ only in what a call may change. A stable call leaves a state that looks like
the one before, and says the same in states that look alike.
-/

namespace Libdap.Core.Call
set_option autoImplicit false

variable {σ α β : Type} {Same : σ → σ → Prop} {s t : σ}

def stateOf : EStateM.Result Fault σ α → σ
  | .ok _ t => t
  | .error _ t => t

def valueOf : EStateM.Result Fault σ α → Except Fault α
  | .ok a _ => .ok a
  | .error f _ => .error f

def Stable (Same : σ → σ → Prop) (x : Call σ α) : Prop :=
  ∀ s, Same s (stateOf (x s)) ∧ ∀ t, Same s t → valueOf (x t) = valueOf (x s)

theorem valueOf_eq_ok {r : EStateM.Result Fault σ α} {a : α} : valueOf r = .ok a ↔ ∃ t, r = .ok a t := by
  cases r with
  | ok b t =>
    constructor
    · intro h
      cases h
      exact ⟨t, rfl⟩
    · rintro ⟨_, ⟨⟩⟩
      rfl
  | error f t =>
    constructor
    · intro h
      cases h
    · rintro ⟨_, ⟨⟩⟩

namespace Stable

theorem pure (hSame : Equivalence Same) (a : α) : Stable Same (Pure.pure a : Call σ α) :=
  fun s => ⟨hSame.refl s, fun _ _ => rfl⟩

theorem throw (hSame : Equivalence Same) (f : Fault) : Stable Same (MonadExcept.throw f : Call σ α) :=
  fun s => ⟨hSame.refl s, fun _ _ => rfl⟩

/-- In a state that looks like the first one a stable call returns what it returns there. -/
theorem run {x : Call σ α} (hx : Stable Same x) (hSame : Equivalence Same) {a : α} (h : valueOf (x s) = .ok a)
    (hst : Same s t) : ∃ t', x t = .ok a t' ∧ Same s t' := by
  obtain ⟨t', hRun⟩ := valueOf_eq_ok.mp (((hx s).2 t hst).trans h)
  refine ⟨t', hRun, hSame.trans hst ?_⟩
  have hAfter := (hx t).1
  rw [hRun] at hAfter
  exact hAfter

theorem bind {x : Call σ α} {f : α → Call σ β} (hSame : Equivalence Same) (hx : Stable Same x)
    (hf : ∀ a, Stable Same (f a)) : Stable Same (x >>= f) := by
  intro s
  obtain ⟨hKeep, hAgain⟩ := hx s
  change Same s (stateOf (EStateM.bind x f s)) ∧
    ∀ t, Same s t → valueOf (EStateM.bind x f t) = valueOf (EStateM.bind x f s)
  simp only [EStateM.bind]
  cases hRun : x s with
  | ok a s₁ =>
    rw [hRun] at hKeep hAgain
    obtain ⟨hRest, hRestAgain⟩ := hf a s₁
    refine ⟨hSame.trans hKeep hRest, fun t hst => ?_⟩
    obtain ⟨t₁, hRunAgain, hLike⟩ := hx.run hSame (valueOf_eq_ok.mpr ⟨s₁, hRun⟩) hst
    rw [hRunAgain]
    exact hRestAgain t₁ (hSame.trans (hSame.symm hKeep) hLike)
  | error e s₁ =>
    rw [hRun] at hKeep hAgain
    refine ⟨hKeep, fun t hst => ?_⟩
    have hError := hAgain t hst
    cases hRunAgain : x t with
    | ok a t₁ =>
      rw [hRunAgain] at hError
      cases hError
    | error e' t₁ =>
      rw [hRunAgain] at hError
      cases hError
      rfl

end Stable

end Libdap.Core.Call
