import Libdap.Core.Call

/-! # Triples for calls

What holds before a call, after one that returned, and after one that threw. After undefined behaviour,
or in a wait without end, there is no state of which anything could hold.
-/

namespace Libdap.Core
set_option autoImplicit false

/-- The state after a call, however it ended. -/
def Call.after {σ α : Type} (x : Call σ α) (s : σ) : Option σ :=
  match x s with
  | .ok _ s' => some s'
  | .error .undefined _ => none
  | .error _ s' => some s'

structure Triple {σ α : Type} (P : σ → Prop) (x : Call σ α) (Q : α → σ → Prop) (E : σ → Prop) : Prop where
  ok : ∀ s a s', P s → x s = .ok a s' → Q a s'
  error : ∀ s f s', P s → x s = .error f s' → f ≠ .undefined → E s'

/-- The call keeps the invariant, also when it throws. -/
abbrev Keeps {σ α : Type} (I : σ → Prop) (x : Call σ α) : Prop := Triple I x (fun _ => I) I

namespace Triple

variable {σ α β : Type} {P P' E E' : σ → Prop} {Q Q' : α → σ → Prop} {R : β → σ → Prop}

theorem after_inv {I : σ → Prop} {x : Call σ α} {s s' : σ} (h : Triple P x (fun _ => I) I) (hs : P s)
    (hAfter : x.after s = some s') : I s' := by
  rw [Call.after] at hAfter
  split at hAfter
  · rename_i a s₁ hRun
    cases hAfter
    exact h.ok s a _ hs hRun
  · cases hAfter
  · rename_i f s₁ hNot hRun
    cases hAfter
    exact h.error s f _ hs hRun hNot

theorem pure {a : α} (h : ∀ s, P s → Q a s) : Triple P (Pure.pure a) Q E := by
  constructor
  · rintro s _ _ hs ⟨⟩
    exact h s hs
  · rintro s f s' _ ⟨⟩

theorem throw {f : Fault} (h : f ≠ .undefined → ∀ s, P s → E s) :
    Triple P (MonadExcept.throw f : Call σ α) Q E := by
  constructor
  · rintro s a s' _ ⟨⟩
  · rintro s _ _ hs ⟨⟩ hNot
    exact h hNot s hs

/-- Undefined behaviour meets every triple. -/
theorem undefined : Triple P (MonadExcept.throw .undefined : Call σ α) Q E :=
  throw fun hNot => absurd rfl hNot

theorem modified {f : σ → σ} {Q : Unit → σ → Prop} (h : ∀ s, P s → Q () (f s)) :
    Triple P (modify f : Call σ Unit) Q E := by
  constructor
  · rintro s _ _ hs ⟨⟩
    exact h s hs
  · rintro s f s' _ ⟨⟩

theorem bind {x : Call σ α} {f : α → Call σ β} (hx : Triple P x Q E) (hf : ∀ a, Triple (Q a) (f a) R E) :
    Triple P (x >>= f) R E := by
  constructor
  · intro s b s' hs hRun
    obtain ⟨a, s₁, hFirst, hRest⟩ := Call.bind_ok.mp hRun
    exact (hf a).ok s₁ b s' (hx.ok s a s₁ hs hFirst) hRest
  · intro s e s' hs hRun hNot
    rcases Call.bind_error.mp hRun with hFirst | ⟨a, s₁, hFirst, hRest⟩
    · exact hx.error s e s' hs hFirst hNot
    · exact (hf a).error s₁ e s' (hx.ok s a s₁ hs hFirst) hRest hNot

/-- What comes next may look at the whole state. -/
theorem get_bind {f : σ → Call σ β} (h : ∀ t, Triple (fun s => P s ∧ s = t) (f t) R E) :
    Triple P (get >>= f) R E := by
  constructor
  · intro s b s' hs hRun
    exact (h s).ok s b s' ⟨hs, rfl⟩ hRun
  · intro s e s' hs hRun hNot
    exact (h s).error s e s' ⟨hs, rfl⟩ hRun hNot

theorem conseq {x : Call σ α} (h : Triple P x Q E) (hPre : ∀ s, P' s → P s) (hPost : ∀ a s, Q a s → Q' a s)
    (hError : ∀ s, E s → E' s) : Triple P' x Q' E' :=
  ⟨fun s a s' hs hRun => hPost a s' (h.ok s a s' (hPre s hs) hRun),
    fun s f s' hs hRun hNot => hError s' (h.error s f s' (hPre s hs) hRun hNot)⟩

theorem weaken {x : Call σ α} (h : Triple P x Q E) (hPre : ∀ s, P' s → P s) : Triple P' x Q E :=
  h.conseq hPre (fun _ _ hq => hq) (fun _ he => he)

theorem ite {c : Prop} [Decidable c] {x y : Call σ α} (hx : c → Triple P x Q E) (hy : ¬ c → Triple P y Q E) :
    Triple P (if c then x else y) Q E := by
  split
  · rename_i hc
    exact hx hc
  · rename_i hc
    exact hy hc

/-- A handler that throws the fault again after it has cleaned up. -/
theorem rethrow {x : Call σ α} {cleanup : Call σ Unit} (hx : Triple P x Q E')
    (hCleanup : Triple E' cleanup (fun _ => E) E)
    (hReturns : Triple (fun _ => True) cleanup (fun _ _ => True) fun _ => False) :
    Triple P (tryCatch x fun f => do cleanup; MonadExcept.throw f) Q E := by
  constructor
  · intro s a s' hs hRun
    obtain hFirst | ⟨f, s₁, -, hHandled⟩ := Call.tryCatch_ok.mp hRun
    · exact hx.ok s a s' hs hFirst
    · obtain ⟨_, s₂, -, hThrow⟩ := Call.bind_ok.mp hHandled
      exact absurd hThrow Call.throw_not_ok
  · intro s f s' hs hRun hNot
    obtain ⟨g, s₁, hFirst, hHandled⟩ := Call.tryCatch_error.mp hRun
    obtain hCut | ⟨_, s₂, hClean, hThrow⟩ := Call.bind_error.mp hHandled
    · exact (hReturns.error s₁ f s' trivial hCut hNot).elim
    · cases hThrow
      exact hCleanup.ok s₁ () _ (hx.error s f s₁ hs hFirst hNot) hClean

/-- A call on a part of the state leaves the rest alone. -/
theorem on {τ : Type} {get : τ → σ} {set : τ → σ → τ} {x : Call σ α} {frame : τ → Prop} (h : Triple P x Q E)
    (hGet : ∀ t s, get (set t s) = s) (hFrame : ∀ t s, frame t → frame (set t s)) :
    Triple (fun t => P (get t) ∧ frame t) (Call.on get set x) (fun a t => Q a (get t) ∧ frame t)
      (fun t => E (get t) ∧ frame t) := by
  constructor
  · rintro t a _ ⟨hPart, hRest⟩ hRun
    obtain ⟨s, hCall, rfl⟩ := Call.on_ok.mp hRun
    refine ⟨?_, hFrame t s hRest⟩
    rw [hGet]
    exact h.ok (get t) a s hPart hCall
  · rintro t f _ ⟨hPart, hRest⟩ hRun hNot
    obtain ⟨s, hCall, rfl⟩ := Call.on_error.mp hRun
    refine ⟨?_, hFrame t s hRest⟩
    rw [hGet]
    exact h.error (get t) f s hPart hCall hNot

/-- A fact about nothing but the arguments. -/
theorem of_fact {p : Prop} {x : Call σ α} (h : p → Triple P x Q E) : Triple (fun s => p ∧ P s) x Q E :=
  ⟨fun s a s' hs hRun => (h hs.1).ok s a s' hs.2 hRun,
    fun s f s' hs hRun hNot => (h hs.1).error s f s' hs.2 hRun hNot⟩

/-- A call that is never made. -/
theorem of_absurd {x : Call σ α} (h : ∀ s, ¬ P s) : Triple P x Q E :=
  ⟨fun s _ _ hs => absurd hs (h s), fun s _ _ hs => absurd hs (h s)⟩

end Triple

/-- The states that calls can lead to, each allowed in the state it is made in. -/
inductive Run {σ op : Type} (call : op → Call σ Unit) (start : σ → Prop) (allowed : σ → op → Prop) : σ → Prop
  | start {s : σ} (h : start s) : Run call start allowed s
  | step {s s' : σ} (o : op) (h : Run call start allowed s) (hAllowed : allowed s o)
    (hAfter : (call o).after s = some s') : Run call start allowed s'

theorem Run.invariant {σ op : Type} {call : op → Call σ Unit} {start : σ → Prop} {allowed : σ → op → Prop}
    {I : σ → Prop} (hStart : ∀ s, start s → I s)
    (hStep : ∀ o, Triple (fun s => I s ∧ allowed s o) (call o) (fun _ => I) I) {s : σ}
    (h : Run call start allowed s) : I s := by
  induction h with
  | start hs => exact hStart _ hs
  | step o _ hAllowed hAfter ih => exact (hStep o).after_inv ⟨ih, hAllowed⟩ hAfter

end Libdap.Core
