import Mathlib.Data.List.Basic
import Libdap.Constraint.RValue
import Libdap.Core.Call

/-! # The selection of a constraint expression

A relational clause compares its left value with the values of a list until one of the comparisons holds. The clauses
are looked at until one is false.
-/

namespace Libdap.Constraint
open Core
set_option autoImplicit false

inductive Clause (V F B Op : Type)
  | relational (op : Op) (arg1 : RValue V F) (args : List (RValue V F))
  | boolean (b_func : B) (args : Option (List (RValue V F)))
  | basetype (bt_func : F) (args : Option (List (RValue V F)))

def Clause.booleanClause {V F B Op : Type} : Clause V F B Op → Bool
  | relational _ _ _ => true
  | boolean _ _ => true
  | basetype _ _ => false

/-- The server functions, and `ops` of a variable. Each of them may read values into the dataset. -/
structure Evaluator (σ V F B Op : Type) where
  btpFunc : BtpFunctions σ V F
  boolFunc : B → Int → List (Entry V) → Call σ Bool
  ops : V → Option V → Op → Call σ Bool

variable {σ V F B Op : Type}

namespace Evaluator

/-- The loop over the values of a list. -/
def anyHolds (ev : Evaluator σ V F B Op) (btp : Option V) (op : Op) : List (RValue V F) → Call σ Bool
  | [] => pure false
  | arg :: args => do
    let p ← bvalue ev.btpFunc arg
    let holds ← match btp with
      | none => throw .undefined
      | some v => ev.ops v p op
    if holds then pure true else anyHolds ev btp op args

/-- `Clause::value` -/
def value (ev : Evaluator σ V F B Op) : Clause V F B Op → Call σ Bool
  | .relational op arg1 args => do
    let btp ← bvalue ev.btpFunc arg1
    ev.anyHolds btp op args
  | .boolean b_func args => callFunction ev.btpFunc (ev.boolFunc b_func) args
  | .basetype _ _ => throw (.InternalErr "A selection expression must contain only boolean clauses.")

/-- The loop of `eval_selection`. -/
def evalSelection (ev : Evaluator σ V F B Op) : List (Clause V F B Op) → Call σ Bool
  | [] => pure true
  | clause :: expr =>
    if clause.booleanClause then do
      let result ← ev.value clause
      if result then ev.evalSelection expr else pure false
    else throw (.InternalErr "A selection expression must contain only boolean clauses.")

end Evaluator

/-- The functions and `ops` leave the dataset as it is but for values that are read, say the same of datasets that do
not differ otherwise, and look at no more entries of `argv` than there are arguments. -/
structure Evaluator.Readonly (ev : Evaluator σ V F B Op) (Same : σ → σ → Prop) : Prop where
  same : Equivalence Same
  btpFunc : ∀ f n argv, Call.Stable Same (ev.btpFunc f n argv)
  boolFunc : ∀ b n argv, Call.Stable Same (ev.boolFunc b n argv)
  ops : ∀ v p op, Call.Stable Same (ev.ops v p op)
  btpFunc_argc : ∀ f (n : Int) argv argv', argv.take n.toNat = argv'.take n.toNat →
    ev.btpFunc f n argv = ev.btpFunc f n argv'
  boolFunc_argc : ∀ b (n : Int) argv argv', argv.take n.toNat = argv'.take n.toNat →
    ev.boolFunc b n argv = ev.boolFunc b n argv'

/-! ## What a selection says -/

/-- The value of an rvalue in a dataset. -/
def RValue.result (ev : Evaluator σ V F B Op) (s : σ) (rv : RValue V F) : Except Fault (Option V) :=
  Call.valueOf (evaluated ev.btpFunc rv s)

/-- The operator holds between the left value and this one. -/
def HoldsFor (ev : Evaluator σ V F B Op) (s : σ) (v : V) (op : Op) (arg : RValue V F) : Prop :=
  ∃ p, arg.result ev s = .ok p ∧ Call.valueOf (ev.ops v p op s) = .ok true

namespace Clause

/-- A clause is true. -/
def IsTrue (ev : Evaluator σ V F B Op) (s : σ) : Clause V F B Op → Prop
  | relational op arg1 args => ∃ v, arg1.result ev s = .ok (some v) ∧ ∃ arg ∈ args, HoldsFor ev s v op arg
  | boolean b_func args => Call.valueOf (passedArgs ev.btpFunc (ev.boolFunc b_func) args s) = .ok true
  | basetype _ _ => False

/-- Everything in a clause has a value. -/
def HasValue (ev : Evaluator σ V F B Op) (s : σ) : Clause V F B Op → Prop
  | relational op arg1 args => arg1.Sized ∧ ∃ v, arg1.result ev s = .ok (some v) ∧
      ∀ arg ∈ args, arg.Sized ∧ ∃ p b, arg.result ev s = .ok p ∧ Call.valueOf (ev.ops v p op s) = .ok b
  | boolean b_func args => FewArgs (args.getD []).length ∧ RValue.AllSized (args.getD []) ∧
      ∃ b, Call.valueOf (passedArgs ev.btpFunc (ev.boolFunc b_func) args s) = .ok b
  | basetype _ _ => False

end Clause

namespace RValue

mutual

/-- No call in it goes through a null pointer for its arguments. -/
def Listed : RValue V F → Prop
  | value _ => True
  | func _ d_args => AllListed d_args
  | funcNull _ => False

def AllListed : List (RValue V F) → Prop
  | [] => True
  | arg :: args => arg.Listed ∧ AllListed args

end

end RValue

/-- No null pointer is met in the values of a list, up to the first that the operator holds for. -/
def ListedUntil (ev : Evaluator σ V F B Op) (s : σ) (v : V) (op : Op) : List (RValue V F) → Prop
  | [] => True
  | arg :: args => arg.Listed ∧ (¬ HoldsFor ev s v op arg → ListedUntil ev s v op args)

def Clause.Listed (ev : Evaluator σ V F B Op) (s : σ) : Clause V F B Op → Prop
  | relational op arg1 args => arg1.Listed ∧ ∀ v, arg1.result ev s = .ok (some v) → ListedUntil ev s v op args
  | boolean _ args => RValue.AllListed (args.getD [])
  | basetype _ _ => True

/-- No null pointer is met in the clauses, up to the first that is false. -/
def SelectionListed (ev : Evaluator σ V F B Op) (s : σ) : List (Clause V F B Op) → Prop
  | [] => True
  | clause :: expr => clause.Listed ev s ∧ (clause.IsTrue ev s → SelectionListed ev s expr)

/-! ## Rvalues -/

variable {ev : Evaluator σ V F B Op} {Same : σ → σ → Prop} {s t : σ}

namespace RValue

mutual

theorem evaluated_stable (h : ev.Readonly Same) :
    (rv : RValue V F) → Call.Stable Same (evaluated ev.btpFunc rv)
  | .value d_value => .pure h.same (some d_value)
  | .func d_func d_args => .bind h.same (evaluatedArgs_stable h d_args) fun _ => h.btpFunc d_func _ _
  | .funcNull d_func => h.btpFunc d_func _ _

theorem evaluatedArgs_stable (h : ev.Readonly Same) :
    (args : List (RValue V F)) → Call.Stable Same (evaluatedArgs ev.btpFunc args)
  | [] => .pure h.same []
  | arg :: args => .bind h.same (evaluated_stable h arg) fun p =>
    .bind h.same (evaluatedArgs_stable h args) fun ps => .pure h.same (p :: ps)

end

mutual

/-- A function that looks at its arguments only is called as it is meant without arguments too. -/
theorem Listed.bvalue_eq (h : ev.Readonly Same) :
    (rv : RValue V F) → rv.Sized → rv.Listed → bvalue ev.btpFunc rv = evaluated ev.btpFunc rv
  | .value _, _, _ => rfl
  | .func d_func d_args, hSized, hListed => by
    have hArgs := AllListed.bvalues_eq h d_args (d_args.length + 1) (Nat.le_succ _) hSized.2 hListed
    by_cases hLength : d_args.length = 0
    · obtain rfl := List.length_eq_zero_iff.mp hLength
      rw [bvalue, evaluated, List.length_nil, buildArgs_zero, pure_bind, evaluatedArgs, pure_bind, pass]
      exact h.btpFunc_argc d_func 0 _ _ rfl
    · exact buildArgs_pass hSized.1 hLength hArgs (ev.btpFunc d_func)
  | .funcNull _, _, hListed => absurd hListed not_false

theorem AllListed.bvalues_eq (h : ev.Readonly Same) :
    (args : List (RValue V F)) → (n : Nat) → args.length ≤ n → AllSized args → AllListed args →
      bvalues ev.btpFunc n args = evaluatedArgs ev.btpFunc args
  | [], n, _, _, _ => by
    cases n with
    | zero => rfl
    | succ n => rfl
  | arg :: args, 0, hn, _, _ => absurd hn (Nat.not_succ_le_zero _)
  | arg :: args, n + 1, hn, hSized, hListed => by
    rw [bvalues, evaluatedArgs, Listed.bvalue_eq h arg hSized.1 hListed.1,
      AllListed.bvalues_eq h args n (Nat.le_of_succ_le_succ hn) hSized.2 hListed.2]

end

mutual

/-- A null pointer for the arguments is met wherever it stands, if nothing else ends the evaluation. -/
theorem bvalue_error (h : ev.Readonly Same) : (rv : RValue V F) → (s t : σ) → (p : Option V) → rv.Sized →
    ¬ rv.Listed → evaluated ev.btpFunc rv s = .ok p t → ∃ f t', bvalue ev.btpFunc rv s = .error f t'
  | .value _, _, _, _, _, hListed, _ => absurd trivial hListed
  | .func d_func d_args, s, t, p, hSized, hListed, hRun => by
    obtain ⟨vals, s₁, hArgs, -⟩ := Call.bind_ok.mp hRun
    have hLength : d_args.length ≠ 0 := by
      intro hZero
      obtain rfl := List.length_eq_zero_iff.mp hZero
      exact hListed trivial
    obtain ⟨f, t', hError⟩ :=
      bvalues_error h d_args (d_args.length + 1) s s₁ vals (Nat.le_succ _) hSized.2 hListed hArgs
    refine ⟨f, t', ?_⟩
    rw [bvalue, buildArgs_eq hSized.1 hLength _ fun s vals t h => bvalues_length _ (Nat.le_succ _) h, bind_assoc,
      Call.bind_error]
    exact .inl hError
  | .funcNull d_func, s, _, _, _, _, _ => ⟨.undefined, s, rfl⟩

theorem bvalues_error (h : ev.Readonly Same) : (args : List (RValue V F)) → (n : Nat) → (s t : σ) →
    (ps : List (Option V)) → args.length ≤ n → AllSized args → ¬ AllListed args →
      evaluatedArgs ev.btpFunc args s = .ok ps t → ∃ f t', bvalues ev.btpFunc n args s = .error f t'
  | [], _, _, _, _, _, _, hListed, _ => absurd trivial hListed
  | arg :: args, 0, _, _, _, hn, _, _, _ => absurd hn (Nat.not_succ_le_zero _)
  | arg :: args, n + 1, s, t, ps, hn, hSized, hListed, hRun => by
    obtain ⟨p, s₁, hFirst, hRest⟩ := Call.bind_ok.mp hRun
    obtain ⟨qs, s₂, hArgs, -⟩ := Call.bind_ok.mp hRest
    rw [bvalues]
    by_cases hArg : arg.Listed
    · obtain ⟨f, t', hError⟩ := bvalues_error h args n s₁ s₂ qs (Nat.le_of_succ_le_succ hn) hSized.2
        (fun hAll => hListed ⟨hArg, hAll⟩) hArgs
      refine ⟨f, t', ?_⟩
      rw [hArg.bvalue_eq h arg hSized.1, Call.bind_of_ok hFirst, Call.bind_error]
      exact .inl hError
    · obtain ⟨f, t', hError⟩ := bvalue_error h arg s s₁ p hSized.1 hArg hFirst
      refine ⟨f, t', ?_⟩
      rw [Call.bind_error]
      exact .inl hError

end

/-- An rvalue with a value, in a dataset that looks like the one it has it in. -/
theorem bvalue_ok (h : ev.Readonly Same) {rv : RValue V F} {p : Option V} (hSized : rv.Sized) (hListed : rv.Listed)
    (hValue : rv.result ev s = .ok p) (hst : Same s t) :
    ∃ t', bvalue ev.btpFunc rv t = .ok p t' ∧ Same s t' := by
  rw [hListed.bvalue_eq h rv hSized]
  exact (evaluated_stable h rv).run h.same hValue hst

theorem bvalue_not_ok (h : ev.Readonly Same) {rv : RValue V F} {p : Option V} (hSized : rv.Sized)
    (hListed : ¬ rv.Listed) (hValue : rv.result ev s = .ok p) (hst : Same s t) :
    ∃ f t', bvalue ev.btpFunc rv t = .error f t' := by
  obtain ⟨t', hRun, -⟩ := (evaluated_stable h rv).run h.same hValue hst
  exact bvalue_error h rv t t' p hSized hListed hRun

end RValue

/-! ## Clauses -/

/-- The call returns whether this holds, and leaves a dataset that looks like the one before. -/
def Decides (Same : σ → σ → Prop) (s : σ) (P : Prop) (r : EStateM.Result Fault σ Bool) : Prop :=
  ∃ b t, r = .ok b t ∧ (b = true ↔ P) ∧ Same s t

/-- The call decides it where no null pointer is met, and otherwise ends with a fault. -/
def DecidesIf (Same : σ → σ → Prop) (s : σ) (P listed : Prop) (r : EStateM.Result Fault σ Bool) : Prop :=
  (listed → Decides Same s P r) ∧ (¬ listed → ∃ f t, r = .error f t)

theorem anyHolds_spec (h : ev.Readonly Same) {v : V} {op : Op} {args : List (RValue V F)}
    (hValues : ∀ arg ∈ args, arg.Sized ∧ ∃ p b, arg.result ev s = .ok p ∧ Call.valueOf (ev.ops v p op s) = .ok b)
    (hst : Same s t) :
    DecidesIf Same s (∃ arg ∈ args, HoldsFor ev s v op arg) (ListedUntil ev s v op args)
      (ev.anyHolds (some v) op args t) := by
  induction args generalizing t with
  | nil =>
    constructor
    · intro _
      exact ⟨false, t, rfl, by simp, hst⟩
    · intro hListed
      exact absurd trivial hListed
  | cons arg args ih =>
    obtain ⟨⟨hSized, p, b, hp, hb⟩, hRest⟩ := List.forall_mem_cons.mp hValues
    rw [Evaluator.anyHolds]
    by_cases hArg : arg.Listed
    · obtain ⟨t₁, hRun, hLike⟩ := RValue.bvalue_ok h hSized hArg hp hst
      obtain ⟨t₂, hOps, hLike'⟩ := (h.ops v p op).run h.same hb hLike
      rw [Call.bind_of_ok hRun, List.exists_mem_cons_iff, ListedUntil]
      dsimp only
      rw [Call.bind_of_ok hOps]
      have hHolds : HoldsFor ev s v op arg ↔ b = true := by
        constructor
        · rintro ⟨p', hp', hTrue⟩
          rw [hp] at hp'
          cases hp'
          rw [hb] at hTrue
          exact Except.ok.inj hTrue
        · rintro rfl
          exact ⟨p, hp, hb⟩
      rw [hHolds]
      cases b with
      | true =>
        constructor
        · intro _
          exact ⟨true, t₂, rfl, by simp, hLike'⟩
        · intro hListed
          exact absurd ⟨hArg, fun hFalse => absurd rfl hFalse⟩ hListed
      | false =>
        obtain ⟨hOk, hError⟩ := ih hRest hLike'
        constructor
        · intro hListed
          obtain ⟨b', t', hLoop, hIff, hAfter⟩ := hOk (hListed.2 (by simp))
          exact ⟨b', t', hLoop, by rw [hIff]; simp, hAfter⟩
        · intro hListed
          exact hError fun hRestListed => hListed ⟨hArg, fun _ => hRestListed⟩
    · obtain ⟨f, t', hError⟩ := RValue.bvalue_not_ok h hSized hArg hp hst
      constructor
      · intro hListed
        exact absurd hListed.1 hArg
      · intro _
        refine ⟨f, t', ?_⟩
        rw [Call.bind_error]
        exact .inl hError

/-- A call that is an argument of nothing else. -/
theorem callFunction_spec (h : ev.Readonly Same) {function : Int → List (Entry V) → Call σ Bool}
    (hStable : ∀ n argv, Call.Stable Same (function n argv))
    (hArgc : ∀ (n : Int) argv argv', argv.take n.toNat = argv'.take n.toNat → function n argv = function n argv')
    {args : Option (List (RValue V F))} {b : Bool} (hFew : FewArgs (args.getD []).length)
    (hSized : RValue.AllSized (args.getD [])) (hb : Call.valueOf (passedArgs ev.btpFunc function args s) = .ok b)
    (hst : Same s t) :
    DecidesIf Same s (Call.valueOf (passedArgs ev.btpFunc function args s) = .ok true)
      (RValue.AllListed (args.getD [])) (callFunction ev.btpFunc function args t) := by
  have hPassed : Call.Stable Same (passedArgs ev.btpFunc function args) :=
    .bind h.same (RValue.evaluatedArgs_stable h _) fun _ => hStable _ _
  obtain ⟨t', hRun, hLike⟩ := hPassed.run h.same hb hst
  rw [hb]
  constructor
  · intro hListed
    have hMeant : callFunction ev.btpFunc function args = passedArgs ev.btpFunc function args := by
      cases args with
      | none => exact hArgc 0 _ _ rfl
      | some args =>
        rw [Option.getD_some] at hFew hSized hListed
        by_cases hLength : args.length = 0
        · obtain rfl := List.length_eq_zero_iff.mp hLength
          rw [List.length_nil] at hFew
          rw [callFunction, buildBtpArgs, List.length_nil, buildArgs_zero, pure_bind, passedArgs, Option.getD_some,
            evaluatedArgs, pure_bind, pass, argc, List.length_nil, int32_of_few hFew]
          exact hArgc 0 _ _ rfl
        · have hArgs := RValue.AllListed.bvalues_eq h args (args.length + 1) (Nat.le_succ _) hSized hListed
          rw [callFunction, buildBtpArgs, buildArgs_eq hFew hLength _
            fun s vals t h => bvalues_length _ (Nat.le_succ _) h, hArgs, bind_assoc, passedArgs]
          apply Call.bind_congr_ok
          intro s vals t hValues
          rw [← hArgs] at hValues
          rw [pure_bind, pass, argc, int32_of_few hFew, bvalues_length _ (Nat.le_succ _) hValues]
    rw [hMeant]
    exact ⟨b, t', hRun, by rw [Except.ok.injEq], hLike⟩
  · intro hListed
    cases args with
    | none => exact absurd trivial hListed
    | some args =>
      rw [Option.getD_some] at hFew hSized hListed
      have hLength : args.length ≠ 0 := by
        intro hZero
        obtain rfl := List.length_eq_zero_iff.mp hZero
        exact hListed trivial
      obtain ⟨vals, s₁, hValues, -⟩ := Call.bind_ok.mp hRun
      obtain ⟨f, t₁, hError⟩ :=
        RValue.bvalues_error h args (args.length + 1) t s₁ vals (Nat.le_succ _) hSized hListed hValues
      refine ⟨f, t₁, ?_⟩
      rw [callFunction, buildBtpArgs, buildArgs_eq hFew hLength _
        fun s vals t h => bvalues_length _ (Nat.le_succ _) h, bind_assoc, Call.bind_error]
      exact .inl hError

theorem value_spec (h : ev.Readonly Same) {clause : Clause V F B Op} (hValue : clause.HasValue ev s)
    (hst : Same s t) :
    DecidesIf Same s (clause.IsTrue ev s) (clause.Listed ev s) (ev.value clause t) := by
  cases clause with
  | relational op arg1 args =>
    obtain ⟨hSized, v, hv, hValues⟩ := hValue
    have hUnique : ∀ v', arg1.result ev s = .ok (some v') ↔ v' = v := by
      intro v'
      rw [hv, Except.ok.injEq, Option.some.injEq]
      exact eq_comm
    rw [Evaluator.value, Clause.IsTrue, Clause.Listed]
    simp only [hUnique, exists_eq_left, forall_eq]
    by_cases hArg : arg1.Listed
    · obtain ⟨t₁, hRun, hLike⟩ := RValue.bvalue_ok h hSized hArg hv hst
      obtain ⟨hOk, hError⟩ := anyHolds_spec h hValues hLike
      rw [Call.bind_of_ok hRun]
      constructor
      · intro hListed
        exact hOk hListed.2
      · intro hListed
        exact hError fun hRest => hListed ⟨hArg, hRest⟩
    · obtain ⟨f, t', hError⟩ := RValue.bvalue_not_ok h hSized hArg hv hst
      constructor
      · intro hListed
        exact absurd hListed.1 hArg
      · intro _
        refine ⟨f, t', ?_⟩
        rw [Call.bind_error]
        exact .inl hError
  | boolean b_func args =>
    obtain ⟨hFew, hSized, b, hb⟩ := hValue
    exact callFunction_spec h (h.boolFunc b_func) (h.boolFunc_argc b_func) hFew hSized hb hst
  | basetype bt_func args => exact absurd hValue not_false

theorem Clause.HasValue.booleanClause {clause : Clause V F B Op} (h : clause.HasValue ev s) :
    clause.booleanClause = true := by
  cases clause with
  | relational op arg1 args => rfl
  | boolean b_func args => rfl
  | basetype bt_func args => exact absurd h not_false

theorem evalSelection_spec (h : ev.Readonly Same) {expr : List (Clause V F B Op)}
    (hValues : ∀ clause ∈ expr, clause.HasValue ev s) (hst : Same s t) :
    DecidesIf Same s (∀ clause ∈ expr, clause.IsTrue ev s) (SelectionListed ev s expr) (ev.evalSelection expr t) := by
  induction expr generalizing t with
  | nil =>
    constructor
    · intro _
      exact ⟨true, t, rfl, by simp, hst⟩
    · intro hListed
      exact absurd trivial hListed
  | cons clause expr ih =>
    obtain ⟨hFirst, hRest⟩ := List.forall_mem_cons.mp hValues
    obtain ⟨hOk, hError⟩ := value_spec h hFirst hst
    rw [Evaluator.evalSelection, if_pos hFirst.booleanClause, List.forall_mem_cons, SelectionListed]
    by_cases hListed : clause.Listed ev s
    · obtain ⟨b, t₁, hRun, hIff, hLike⟩ := hOk hListed
      rw [Call.bind_of_ok hRun, ← hIff]
      cases b with
      | true =>
        obtain ⟨hOkRest, hErrorRest⟩ := ih hRest hLike
        constructor
        · intro hAll
          obtain ⟨b', t', hLoop, hIff', hAfter⟩ := hOkRest (hAll.2 rfl)
          exact ⟨b', t', hLoop, by rw [hIff']; simp, hAfter⟩
        · intro hAll
          exact hErrorRest fun hRestListed => hAll ⟨hListed, fun _ => hRestListed⟩
      | false =>
        constructor
        · intro _
          exact ⟨false, t₁, rfl, by simp, hLike⟩
        · intro hAll
          exact absurd ⟨hListed, fun hFalse => absurd hFalse (by simp)⟩ hAll
    · obtain ⟨f, t', hRun⟩ := hError hListed
      constructor
      · intro hAll
        exact absurd hAll.1 hListed
      · intro _
        refine ⟨f, t', ?_⟩
        rw [Call.bind_error]
        exact .inl hRun

/-- In a dataset in which everything has a value, a selection is decided if and only if no call without arguments is
met in its rvalues. -/
theorem evalSelection_iff (h : ev.Readonly Same) {expr : List (Clause V F B Op)}
    (hValues : ∀ clause ∈ expr, clause.HasValue ev s) :
    Decides Same s (∀ clause ∈ expr, clause.IsTrue ev s) (ev.evalSelection expr s) ↔ SelectionListed ev s expr := by
  obtain ⟨hOk, hError⟩ := evalSelection_spec h hValues (h.same.refl s)
  constructor
  · rintro ⟨b, t, hRun, -⟩
    by_contra hListed
    obtain ⟨f, t', hFault⟩ := hError hListed
    rw [hFault] at hRun
    cases hRun
  · exact hOk

/-! ## A small dataset -/

/-- Integers, a function that returns its first argument or else 7, one that has an argument, and `<`. -/
def integers : Evaluator Unit Int Unit Unit Unit where
  btpFunc _ n argv := pure (match argv.take n.toNat with
    | .pointer p :: _ => p
    | _ => some 7)
  boolFunc _ n _ := pure (0 < n)
  ops v p _ := pure (p.any (v < ·))

theorem integers_readonly : integers.Readonly fun _ _ => True := by
  have hSame : Equivalence fun _ _ : Unit => True := ⟨fun _ => trivial, fun _ => trivial, fun _ _ => trivial⟩
  refine ⟨hSame, fun _ _ _ => .pure hSame _, fun _ _ _ => .pure hSame _, fun _ _ _ => .pure hSame _, ?_, ?_⟩
  · intro f n argv argv' hTake
    simp only [integers, hTake]
  · intro b n argv argv' _
    rfl

/-- `1 < {0, f(5)} & g(1)` -/
theorem list_with_call_decided :
    Decides (fun _ _ => True) () (∀ clause ∈ [Clause.relational () (.value 1) [.value 0, .func () [.value 5]],
      .boolean () (some [.value 1])], clause.IsTrue integers ())
      (integers.evalSelection [.relational () (.value 1) [.value 0, .func () [.value 5]],
        .boolean () (some [.value 1])] ()) := by
  refine (evalSelection_iff integers_readonly ?_).mpr ?_
  · rw [List.forall_mem_cons, List.forall_mem_singleton]
    refine ⟨⟨trivial, 1, rfl, ?_⟩, by decide, ⟨trivial, trivial⟩, true, rfl⟩
    rw [List.forall_mem_cons, List.forall_mem_singleton]
    exact ⟨⟨trivial, some 0, false, rfl, rfl⟩, ⟨by decide, trivial, trivial⟩, some 5, true, rfl, rfl⟩
  · exact ⟨⟨trivial, fun v hv => ⟨trivial, fun _ => ⟨⟨trivial, trivial⟩, fun _ => trivial⟩⟩⟩,
      fun _ => ⟨⟨trivial, trivial⟩, fun _ => trivial⟩⟩

/-- `1 < f()` -/
theorem call_without_arguments_not_decided :
    (Clause.relational () (.value 1) [.funcNull ()]).IsTrue integers () ∧
      integers.evalSelection [.relational () (.value 1) [.funcNull ()]] () = .error .undefined () :=
  ⟨⟨1, rfl, .funcNull (), List.mem_singleton.mpr rfl, some 7, rfl, rfl⟩, rfl⟩

end Libdap.Constraint
