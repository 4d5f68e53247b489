import Mathlib.Logic.Function.Basic
import Libdap.Core.Fault

/-! # Processes that make system calls

A process runs one operation after the other; each is a program of which every system call is one step, and the
steps of the processes alternate in any order. A contract says what each process may rely on while the others
step and what it guarantees them in turn.
-/

namespace Libdap.Core
set_option autoImplicit false

inductive Program (F : Type → Type) (α : Type) : Type 1
  | ret (a : α)
  | throw (f : Fault)
  | call {β : Type} (c : F β) (k : β → Program F α)

namespace Program

variable {F : Type → Type} {α β : Type}

def bind : Program F α → (α → Program F β) → Program F β
  | .ret a, f => f a
  | .throw e, _ => .throw e
  | .call c k, f => .call c fun b => (k b).bind f

/-- `try` with a handler for whatever is thrown. -/
def tryCatch : Program F α → (Fault → Program F α) → Program F α
  | .ret a, _ => .ret a
  | .throw e, h => h e
  | .call c k, h => .call c fun b => (k b).tryCatch h

instance : Monad (Program F) where
  pure := ret
  bind := bind

instance : MonadExceptOf Fault (Program F) where
  throw := throw
  tryCatch := tryCatch

/-- One system call. -/
def sys (c : F β) : Program F β := call c ret

end Program

/-- A kernel, which serves a call unless it has to wait, and the operations' programs. -/
structure Machine (Pid σ Op Choice : Type) (F : Type → Type) (R : Type) where
  serve : Pid → Choice → {β : Type} → F β → σ → Option (β × σ)
  program : Op → Program F R

/-- Each process with its latest operation and what is left of it. -/
structure World (Pid σ Op : Type) (F : Type → Type) (R : Type) : Type 1 where
  shared : σ
  proc : Pid → Option (Op × Program F R)

/-- A process takes a step; when its latest operation is over, the first one of the operation named. -/
structure Turn (Pid Op Choice : Type) where
  pid : Pid
  op : Op
  choice : Choice

section
variable {Pid σ Op Choice : Type} {F : Type → Type} {R : Type}

namespace Machine

variable (m : Machine Pid σ Op Choice F R)

/-- What the process goes on with. -/
def current (w : World Pid σ Op F R) (e : Turn Pid Op Choice) : Op × Program F R :=
  match w.proc e.pid with
  | some (op, .call c k) => (op, .call c k)
  | _ => (e.op, m.program e.op)

def step [DecidableEq Pid] (w : World Pid σ Op F R) (e : Turn Pid Op Choice) : Option (World Pid σ Op F R) :=
  match m.current w e with
  | (op, .call c k) =>
    (m.serve e.pid e.choice c w.shared).map fun r =>
      ⟨r.2, Function.update w.proc e.pid (some (op, k r.1))⟩
  | (op, prog) => some ⟨w.shared, Function.update w.proc e.pid (some (op, prog))⟩

/-- The worlds that turns can lead to, each allowed in the world it is taken in. -/
inductive Reached [DecidableEq Pid] (start : World Pid σ Op F R → Prop)
    (allowed : World Pid σ Op F R → Turn Pid Op Choice → Prop) :
    World Pid σ Op F R → Prop
  | start {w : World Pid σ Op F R} (h : start w) : Reached start allowed w
  | step {w w' : World Pid σ Op F R} (e : Turn Pid Op Choice) (h : Reached start allowed w) (hAllowed : allowed w e)
    (hStep : m.step w e = some w') : Reached start allowed w'

/-- A list of turns, each of which has to be allowed. -/
def run [DecidableEq Pid] (allowed : World Pid σ Op F R → Turn Pid Op Choice → Prop) [∀ w e, Decidable (allowed w e)]
    (w : World Pid σ Op F R) : List (Turn Pid Op Choice) → Option (World Pid σ Op F R)
  | [] => some w
  | e :: es => if allowed w e then (m.step w e).bind fun w' => run allowed w' es else none

variable {m}

theorem Reached.run [DecidableEq Pid] {start : World Pid σ Op F R → Prop}
    {allowed : World Pid σ Op F R → Turn Pid Op Choice → Prop} [∀ w e, Decidable (allowed w e)]
    {w w' : World Pid σ Op F R}
    {es : List (Turn Pid Op Choice)} (h : m.Reached start allowed w) (hRun : m.run allowed w es = some w') :
    m.Reached start allowed w' := by
  induction es generalizing w with
  | nil =>
    cases hRun
    exact h
  | cons e es ih =>
    rw [Machine.run] at hRun
    split at hRun
    · rename_i hAllowed
      obtain ⟨w₁, hStep, hRest⟩ := Option.bind_eq_some_iff.mp hRun
      exact ih (h.step e hAllowed hStep) hRest
    · cases hRun

end Machine

/-- Over states that may carry more than the real ones do: what holds of all of them, what a process's step
guarantees, what is known of an allowed step, and what holds of the state at each call that is still to be
made. -/
structure Contract (Pid σ τ Op Choice : Type) (F : Type → Type) where
  real : τ → σ
  inv : τ → Prop
  guar : Pid → τ → τ → Prop
  cond : Pid → Op → Choice → {β : Type} → F β → τ → Prop
  link : Pid → Op → {β : Type} → F β → τ → Prop

namespace Contract

variable {τ : Type} (C : Contract Pid σ τ Op Choice F) (m : Machine Pid σ Op Choice F R) {α β : Type}

/-- No step of another process does away with it. -/
def Stable (p : Pid) (P : τ → Prop) : Prop :=
  ∀ q t t', q ≠ p → C.inv t → C.inv t' → C.guar q t t' → P t → P t'

/-- The program keeps the contract from the state on, whatever the other processes do in between, and ends as
said. -/
def Safe (p : Pid) (op : Op) (Q : α → τ → Prop) (E : Fault → τ → Prop) : Program F α → τ → Prop
  | .ret a, t => C.inv t ∧ Q a t
  | .throw f, t => C.inv t ∧ E f t
  | .call c k, t => ∃ P, C.Stable p P ∧ P t ∧ ∀ t, C.inv t → P t → C.link p op c t ∧
      ∀ choice b s', m.serve p choice c (C.real t) = some (b, s') → C.cond p op choice c t →
        ∃ t', C.real t' = s' ∧ C.inv t' ∧ C.guar p t t' ∧ Safe p op Q E (k b) t'

def Meets (p : Pid) (op : Op) (P : τ → Prop) (x : Program F α) (Q : α → τ → Prop) (E : Fault → τ → Prop) : Prop :=
  ∀ t, C.inv t → P t → C.Safe m p op Q E x t

variable {C m} {p : Pid} {op : Op} {P P' : τ → Prop} {Q Q' : α → τ → Prop} {E E' : Fault → τ → Prop} {S : β → τ → Prop}

theorem Stable.and (hP : C.Stable p P) (hP' : C.Stable p P') : C.Stable p fun t => P t ∧ P' t :=
  fun q t t' hNot hInv hInv' hGuar h => ⟨hP q t t' hNot hInv hInv' hGuar h.1, hP' q t t' hNot hInv hInv' hGuar h.2⟩

theorem Stable.fact {φ : Prop} : C.Stable p fun _ => φ := fun _ _ _ _ _ _ _ h => h

theorem Stable.exists {ι : Type} {P : ι → τ → Prop} (h : ∀ i, C.Stable p (P i)) : C.Stable p fun t => ∃ i, P i t := by
  rintro q t t' hNot hInv hInv' hGuar ⟨i, hi⟩
  exact ⟨i, h i q t t' hNot hInv hInv' hGuar hi⟩

theorem Safe.stable (hQ : ∀ a, C.Stable p (Q a)) (hE : ∀ f, C.Stable p (E f)) {x : Program F α} {t t' : τ} {q : Pid}
    (hNot : q ≠ p) (hInv : C.inv t) (hInv' : C.inv t') (hGuar : C.guar q t t') (h : C.Safe m p op Q E x t) :
    C.Safe m p op Q E x t' := by
  cases x with
  | ret a => exact ⟨hInv', hQ a q t t' hNot hInv hInv' hGuar h.2⟩
  | throw f => exact ⟨hInv', hE f q t t' hNot hInv hInv' hGuar h.2⟩
  | call c k =>
    obtain ⟨P, hStable, hP, hNext⟩ := h
    exact ⟨P, hStable, hStable q t t' hNot hInv hInv' hGuar hP, hNext⟩

theorem Safe.bind {x : Program F α} {f : α → Program F β} {E : Fault → τ → Prop} {t : τ} (h : C.Safe m p op Q E x t)
    (hf : ∀ a, C.Meets m p op (Q a) (f a) S E) : C.Safe m p op S E (x.bind f) t := by
  induction x generalizing t with
  | ret a => exact hf a t h.1 h.2
  | throw e => exact h
  | call c k ih =>
    obtain ⟨P, hStable, hP, hNext⟩ := h
    refine ⟨P, hStable, hP, fun t hInv ht => ⟨(hNext t hInv ht).1, ?_⟩⟩
    intro choice b s' hServe hCond
    obtain ⟨t', hReal, hInv', hGuar, hRest⟩ := (hNext t hInv ht).2 choice b s' hServe hCond
    exact ⟨t', hReal, hInv', hGuar, ih b hRest⟩

theorem Safe.tryCatch {x : Program F α} {h : Fault → Program F α} {t : τ} (hx : C.Safe m p op Q E x t)
    (hh : ∀ f, C.Meets m p op (E f) (h f) Q E') : C.Safe m p op Q E' (x.tryCatch h) t := by
  induction x generalizing t with
  | ret a => exact hx
  | throw e => exact hh e t hx.1 hx.2
  | call c k ih =>
    obtain ⟨P, hStable, hP, hNext⟩ := hx
    refine ⟨P, hStable, hP, fun t hInv ht => ⟨(hNext t hInv ht).1, ?_⟩⟩
    intro choice b s' hServe hCond
    obtain ⟨t', hReal, hInv', hGuar, hRest⟩ := (hNext t hInv ht).2 choice b s' hServe hCond
    exact ⟨t', hReal, hInv', hGuar, ih b hRest⟩

theorem Safe.conseq {x : Program F α} {t : τ} (h : C.Safe m p op Q E x t) (hQ : ∀ a t, C.inv t → Q a t → Q' a t)
    (hE : ∀ f t, C.inv t → E f t → E' f t) : C.Safe m p op Q' E' x t := by
  induction x generalizing t with
  | ret a => exact ⟨h.1, hQ a t h.1 h.2⟩
  | throw f => exact ⟨h.1, hE f t h.1 h.2⟩
  | call c k ih =>
    obtain ⟨P, hStable, hP, hNext⟩ := h
    refine ⟨P, hStable, hP, fun t hInv ht => ⟨(hNext t hInv ht).1, ?_⟩⟩
    intro choice b s' hServe hCond
    obtain ⟨t', hReal, hInv', hGuar, hRest⟩ := (hNext t hInv ht).2 choice b s' hServe hCond
    exact ⟨t', hReal, hInv', hGuar, ih b hRest⟩

namespace Meets

theorem ret {a : α} (h : ∀ t, C.inv t → P t → Q a t) : C.Meets m p op P (pure a) Q E :=
  fun t hInv hP => ⟨hInv, h t hInv hP⟩

theorem throw {f : Fault} (h : ∀ t, C.inv t → P t → E f t) : C.Meets m p op P (MonadExcept.throw f : Program F α) Q E :=
  fun t hInv hP => ⟨hInv, h t hInv hP⟩

theorem bind {x : Program F α} {f : α → Program F β} (hx : C.Meets m p op P x Q E)
    (hf : ∀ a, C.Meets m p op (Q a) (f a) S E) : C.Meets m p op P (x >>= f) S E :=
  fun t hInv hP => (hx t hInv hP).bind hf

theorem tryCatch {x : Program F α} {h : Fault → Program F α} (hx : C.Meets m p op P x Q E)
    (hh : ∀ f, C.Meets m p op (E f) (h f) Q E') :
    C.Meets m p op P (MonadExcept.tryCatch x h : Program F α) Q E' :=
  fun t hInv hP => (hx t hInv hP).tryCatch hh

theorem conseq {x : Program F α} (h : C.Meets m p op P x Q E) (hPre : ∀ t, C.inv t → P' t → P t)
    (hPost : ∀ a t, C.inv t → Q a t → Q' a t) (hThrow : ∀ f t, C.inv t → E f t → E' f t) : C.Meets m p op P' x Q' E' :=
  fun t hInv hP => (h t hInv (hPre t hInv hP)).conseq hPost hThrow

theorem weaken {x : Program F α} (h : C.Meets m p op P x Q E) (hPre : ∀ t, C.inv t → P' t → P t) :
    C.Meets m p op P' x Q E :=
  h.conseq hPre (fun _ _ _ hq => hq) (fun _ _ _ he => he)

theorem of_fact {φ : Prop} {x : Program F α} (h : φ → C.Meets m p op P x Q E) :
    C.Meets m p op (fun t => φ ∧ P t) x Q E :=
  fun t hInv hP => h hP.1 t hInv hP.2

theorem of_exists {ι : Type} {P : ι → τ → Prop} {x : Program F α} (h : ∀ i, C.Meets m p op (P i) x Q E) :
    C.Meets m p op (fun t => ∃ i, P i t) x Q E := by
  rintro t hInv ⟨i, hi⟩
  exact h i t hInv hi

/-- One step. -/
theorem sys {c : F β} (hStable : C.Stable p P) (hLink : ∀ t, C.inv t → P t → C.link p op c t)
    (hStep : ∀ t choice b s', C.inv t → P t → m.serve p choice c (C.real t) = some (b, s') → C.cond p op choice c t →
      ∃ t', C.real t' = s' ∧ C.inv t' ∧ C.guar p t t' ∧ S b t') :
    C.Meets m p op P (Program.sys c) S E := by
  intro t _ hP
  refine ⟨P, hStable, hP, fun t hInv ht => ⟨hLink t hInv ht, ?_⟩⟩
  intro choice b s' hServe hCond
  obtain ⟨t', hReal, hInv', hGuar, hS⟩ := hStep t choice b s' hInv ht hServe hCond
  exact ⟨t', hReal, hInv', hGuar, hInv', hS⟩

end Meets

/-- What is known of a process from outside: it is idle, or about to make a call. -/
inductive Seen (C : Contract Pid σ τ Op Choice F) (idle : Pid → τ → Prop) (q : Pid) (t : τ) :
    Option (Op × Program F R) → Prop
  | none (h : idle q t) : Seen C idle q t none
  | ret (op : Op) (r : R) (h : idle q t) : Seen C idle q t (some (op, .ret r))
  | throw (op : Op) (f : Fault) (h : idle q t) : Seen C idle q t (some (op, .throw f))
  | call (op : Op) {β : Type} (c : F β) (k : β → Program F R) (h : C.link q op c t) :
    Seen C idle q t (some (op, .call c k))

/-- The programs meet the contract, and allowed turns are what it takes them for. -/
structure Kept [DecidableEq Pid] (C : Contract Pid σ τ Op Choice F) (m : Machine Pid σ Op Choice F R)
    (allowed : World Pid σ Op F R → Turn Pid Op Choice → Prop) (idle : Pid → τ → Prop)
    (post : Pid → Op → R → τ → Prop) : Prop where
  idle_stable : ∀ p, C.Stable p (idle p)
  post_stable : ∀ p op r, C.Stable p (post p op r)
  post_idle : ∀ p op r t, post p op r t → idle p t
  meets : ∀ p op, C.Meets m p op (idle p) (m.program op) (post p op) (fun _ => idle p)
  cond : ∀ w (e : Turn Pid Op Choice) t op {β : Type} (c : F β) k, C.inv t → C.real t = w.shared →
    (∀ q, C.Seen idle q t (w.proc q)) → m.current w e = (op, .call c k) → allowed w e → C.cond e.pid op e.choice c t

/-- A process between two steps. -/
def Ready (C : Contract Pid σ τ Op Choice F) (m : Machine Pid σ Op Choice F R) (idle : Pid → τ → Prop)
    (post : Pid → Op → R → τ → Prop) (p : Pid) (t : τ) : Option (Op × Program F R) → Prop
  | none => idle p t
  | some (op, prog) => C.Safe m p op (post p op) (fun _ => idle p) prog t

variable {idle : Pid → τ → Prop} {post : Pid → Op → R → τ → Prop}

structure Holds (C : Contract Pid σ τ Op Choice F) (m : Machine Pid σ Op Choice F R) (idle : Pid → τ → Prop)
    (post : Pid → Op → R → τ → Prop) (w : World Pid σ Op F R) (t : τ) : Prop where
  real : C.real t = w.shared
  inv : C.inv t
  ready : ∀ p, C.Ready m idle post p t (w.proc p)

theorem Holds.seen {w : World Pid σ Op F R} {t : τ} (h : C.Holds m idle post w t)
    (hIdle : ∀ p op r t, post p op r t → idle p t) (q : Pid) : C.Seen idle q t (w.proc q) := by
  have hReady := h.ready q
  cases hProc : w.proc q with
  | none =>
    rw [hProc] at hReady
    exact .none hReady
  | some r =>
    obtain ⟨op, prog⟩ := r
    rw [hProc] at hReady
    cases prog with
    | ret a => exact .ret op a (hIdle _ _ _ _ hReady.2)
    | throw f => exact .throw op f hReady.2
    | call c k =>
      obtain ⟨P, -, hP, hNext⟩ := hReady
      exact .call op c k (hNext t h.inv hP).1

section
variable [DecidableEq Pid] {allowed : World Pid σ Op F R → Turn Pid Op Choice → Prop}

/-- The program that a turn goes on with is safe. -/
theorem Holds.current (hKept : Kept C m allowed idle post) {w : World Pid σ Op F R} {t : τ}
    (h : C.Holds m idle post w t)
    (e : Turn Pid Op Choice) :
    C.Safe m e.pid (m.current w e).1 (post e.pid (m.current w e).1) (fun _ => idle e.pid) (m.current w e).2 t := by
  have hReady := h.ready e.pid
  have hNew : idle e.pid t → C.Safe m e.pid e.op (post e.pid e.op) (fun _ => idle e.pid) (m.program e.op) t :=
    fun hIdle => hKept.meets e.pid e.op t h.inv hIdle
  rw [Machine.current]
  cases hProc : w.proc e.pid with
  | none =>
    rw [hProc] at hReady
    exact hNew hReady
  | some r =>
    obtain ⟨op, prog⟩ := r
    rw [hProc] at hReady
    cases prog with
    | ret a => exact hNew (hKept.post_idle _ _ _ _ hReady.2)
    | throw f => exact hNew hReady.2
    | call c k => exact hReady

/-- What a step does is seen in the state, and the other processes stay ready. -/
theorem Holds.updated (hKept : Kept C m allowed idle post) {w : World Pid σ Op F R} {t t' : τ}
    (h : C.Holds m idle post w t)
    {p : Pid} (hInv' : C.inv t') (hGuar : C.guar p t t') {op : Op} {prog : Program F R}
    (hSafe : C.Safe m p op (post p op) (fun _ => idle p) prog t') {s' : σ} (hReal : C.real t' = s') :
    C.Holds m idle post ⟨s', Function.update w.proc p (some (op, prog))⟩ t' := by
  refine ⟨hReal, hInv', ?_⟩
  intro q
  rcases eq_or_ne q p with rfl | hNot
  · simp only [Function.update_self]
    exact hSafe
  · simp only [Function.update_of_ne hNot]
    have hReady := h.ready q
    cases hProc : w.proc q with
    | none =>
      rw [hProc] at hReady
      exact hKept.idle_stable q p t t' hNot.symm h.inv hInv' hGuar hReady
    | some r =>
      rw [hProc] at hReady
      exact Safe.stable (hKept.post_stable q r.1) (fun _ => hKept.idle_stable q) hNot.symm h.inv hInv' hGuar hReady

theorem Holds.step (hKept : Kept C m allowed idle post) (hRefl : ∀ p t, C.guar p t t) {w w' : World Pid σ Op F R}
    {t : τ}
    (h : C.Holds m idle post w t) {e : Turn Pid Op Choice} (hAllowed : allowed w e) (hStep : m.step w e = some w') :
    ∃ t', C.Holds m idle post w' t' ∧ C.guar e.pid t t' := by
  have hSafe := h.current hKept e
  rw [Machine.step] at hStep
  cases hCurrent : m.current w e with
  | mk op prog =>
    rw [hCurrent] at hStep hSafe
    cases prog with
    | ret a =>
      cases hStep
      exact ⟨t, h.updated hKept h.inv (hRefl _ _) hSafe h.real, hRefl _ _⟩
    | throw f =>
      cases hStep
      exact ⟨t, h.updated hKept h.inv (hRefl _ _) hSafe h.real, hRefl _ _⟩
    | call c k =>
      obtain ⟨⟨b, s'⟩, hServe, rfl⟩ := Option.map_eq_some_iff.mp hStep
      have hCond : C.cond e.pid op e.choice c t :=
        hKept.cond w e t op c k h.inv h.real (h.seen hKept.post_idle) hCurrent hAllowed
      obtain ⟨P, -, hP, hNext⟩ := hSafe
      obtain ⟨t', hReal, hInv', hGuar, hRest⟩ := (hNext t h.inv hP).2 e.choice b s' (by rw [h.real]; exact hServe) hCond
      exact ⟨t', h.updated hKept hInv' hGuar hRest hReal, hGuar⟩

/-- In every world reached the contract holds of a state over it. -/
theorem Kept.reached (hKept : Kept C m allowed idle post) (hRefl : ∀ p t, C.guar p t t)
    {start : World Pid σ Op F R → Prop}
    (hStart : ∀ w, start w → ∃ t, C.Holds m idle post w t) {w : World Pid σ Op F R} (h : m.Reached start allowed w) :
    ∃ t, C.Holds m idle post w t := by
  induction h with
  | start hs => exact hStart _ hs
  | step e _ hAllowed hStep ih =>
    obtain ⟨t, ht⟩ := ih
    obtain ⟨t', ht', -⟩ := ht.step hKept hRefl hAllowed hStep
    exact ⟨t', ht'⟩

end

end Contract

end

end Libdap.Core
