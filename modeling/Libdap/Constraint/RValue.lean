import Libdap.Core.Call
import Libdap.Core.Int32

/-! # Function calls of a constraint expression

The parser keeps the arguments of a call as a list of rvalues; a call without arguments has no list at all.
`build_btp_args` makes the array of pointers of it that the function is called with.
-/

namespace Libdap.Constraint
open Core
set_option autoImplicit false

/-- A variable, or a call of a function with the list of its arguments or with a null pointer in its place. -/
inductive RValue (V F : Type)
  | value (d_value : V)
  | func (d_func : F) (d_args : List (RValue V F))
  | funcNull (d_func : F)

/-- An entry of `argv`: as `new` leaves it, or a pointer, which may be null. -/
inductive Entry (V : Type)
  | unset
  | pointer (p : Option V)
  deriving DecidableEq, Repr

/-- What the server functions do, from the two numbers of a call on. -/
abbrev BtpFunctions (σ V F : Type) := F → Int → List (Entry V) → Call σ (Option V)

def sizeOk (sz nelem : Nat) : Bool := 0 < sz && nelem < UINT_MAX / sz

variable {σ V F : Type}

/-- `build_btp_args`, for a list of so many rvalues. The first ones of them are evaluated, as many as there is room
for in the array. -/
def buildArgs (size : Nat) (evaluate : Nat → Call σ (List (Option V))) : Call σ (List (Entry V)) :=
  if sizeOk 8 (uint32 (int32 size + 1)) then
    if int32 size = 0 then pure [.unset]
    else do
      let vals ← evaluate (int32 size + 1).toNat
      if int32 size + 1 ≤ vals.length then throw .outOfBounds
      else if (vals.length : Int) ≠ int32 size then throw (.InternalErr "index out of range.")
      else pure (vals.map .pointer ++ [.pointer none])
  else throw (.Error ("Malformed argument list (" ++ toString (int32 size) ++ ")."))

mutual

def bvalue (run : BtpFunctions σ V F) : RValue V F → Call σ (Option V)
  | .value d_value => pure (some d_value)
  | .func d_func d_args => do
    let argv ← buildArgs d_args.length fun n => bvalues run n d_args
    run d_func (int32 d_args.length) argv
  | .funcNull _ => do
    let _ ← buildArgs (V := V) 0 fun _ => pure []
    throw .undefined

/-- The loop over the arguments, up to so many of them. -/
def bvalues (run : BtpFunctions σ V F) : Nat → List (RValue V F) → Call σ (List (Option V))
  | n + 1, arg :: args => do
    let p ← bvalue run arg
    let ps ← bvalues run n args
    pure (p :: ps)
  | _, _ => pure []

end

/-- `_argc` of a clause, and the number that a projection function is called with. -/
def argc : Option (List (RValue V F)) → Int
  | none => 0
  | some args => int32 args.length

def buildBtpArgs (run : BtpFunctions σ V F) : Option (List (RValue V F)) → Call σ (List (Entry V))
  | none => buildArgs 0 fun _ => pure []
  | some args => buildArgs args.length fun n => bvalues run n args

/-- A call that is not an argument: a clause with a boolean function or a function that returns a variable, and a
projection function in the parser. -/
def callFunction {α : Type} (run : BtpFunctions σ V F) (function : Int → List (Entry V) → Call σ α)
    (args : Option (List (RValue V F))) : Call σ α := do
  let argv ← buildBtpArgs run args
  function (argc args) argv

/-! ## Calls as they are meant -/

/-- A function is passed the number of its arguments, the arguments and a null pointer behind them. -/
def pass {α : Type} (function : Int → List (Entry V) → Call σ α) (vals : List (Option V)) : Call σ α :=
  function vals.length (vals.map .pointer ++ [.pointer none])

mutual

def evaluated (run : BtpFunctions σ V F) : RValue V F → Call σ (Option V)
  | .value d_value => pure (some d_value)
  | .func d_func d_args => do
    let vals ← evaluatedArgs run d_args
    pass (run d_func) vals
  | .funcNull d_func => pass (run d_func) []

/-- The arguments in their order. -/
def evaluatedArgs (run : BtpFunctions σ V F) : List (RValue V F) → Call σ (List (Option V))
  | [] => pure []
  | arg :: args => do
    let p ← evaluated run arg
    let ps ← evaluatedArgs run args
    pure (p :: ps)

end

def passedArgs {α : Type} (run : BtpFunctions σ V F) (function : Int → List (Entry V) → Call σ α)
    (args : Option (List (RValue V F))) : Call σ α := do
  let vals ← evaluatedArgs run (args.getD [])
  pass function vals

/-- So many arguments as `size_ok` lets pass. -/
def FewArgs (n : Nat) : Prop := n + 1 < UINT_MAX / 8

instance (n : Nat) : Decidable (FewArgs n) := inferInstanceAs (Decidable (_ < _))

namespace RValue

mutual

/-- No call in it has more arguments than `size_ok` lets pass. -/
def Sized : RValue V F → Prop
  | value _ => True
  | func _ d_args => FewArgs d_args.length ∧ AllSized d_args
  | funcNull _ => True

def AllSized : List (RValue V F) → Prop
  | [] => True
  | arg :: args => arg.Sized ∧ AllSized args

end

mutual

/-- Every call in it has arguments. -/
def Argued : RValue V F → Prop
  | value _ => True
  | func _ d_args => d_args ≠ [] ∧ AllArgued d_args
  | funcNull _ => False

def AllArgued : List (RValue V F) → Prop
  | [] => True
  | arg :: args => arg.Argued ∧ AllArgued args

end

end RValue

theorem int32_of_few {n : Nat} (h : FewArgs n) : int32 n = n := by
  simp only [FewArgs, UINT_MAX] at h
  exact int32_of_bounds (by omega) (by simp only [INT_MAX]; omega)

theorem sizeOk_of_few {n : Nat} (h : FewArgs n) : sizeOk 8 (uint32 ((n : Int) + 1)) = true := by
  rw [sizeOk, Bool.and_eq_true]
  refine ⟨rfl, decide_eq_true ?_⟩
  simp only [FewArgs, UINT_MAX, uint32] at h ⊢
  omega

/-- A list that `size_ok` lets pass is an array with a null pointer at its end, unless it is empty. -/
theorem buildArgs_eq {n : Nat} (h : FewArgs n) (hn : n ≠ 0) (evaluate : Nat → Call σ (List (Option V)))
    (hLength : ∀ s vals t, evaluate (n + 1) s = .ok vals t → vals.length = n) :
    buildArgs n evaluate = evaluate (n + 1) >>= fun vals => pure (vals.map .pointer ++ [.pointer none]) := by
  have hToNat : ((n : Int) + 1).toNat = n + 1 := by omega
  rw [buildArgs, int32_of_few h, if_pos (sizeOk_of_few h), if_neg (by omega), hToNat]
  apply Call.bind_congr_ok
  intro s vals t hRun
  rw [hLength s vals t hRun, if_neg (by omega), if_neg (by simp)]

theorem buildArgs_zero (evaluate : Nat → Call σ (List (Option V))) : buildArgs 0 evaluate = pure [.unset] := rfl

theorem bvalues_length (run : BtpFunctions σ V F) {args : List (RValue V F)} {n : Nat} (hn : args.length ≤ n)
    {s t : σ} {vals : List (Option V)} (h : bvalues run n args s = .ok vals t) : vals.length = args.length := by
  induction args generalizing n s t vals with
  | nil =>
    rw [bvalues] at h
    · cases h
      rfl
    · intro n arg args _ hArgs
      cases hArgs
  | cons arg args ih =>
    cases n with
    | zero => exact absurd hn (Nat.not_succ_le_zero _)
    | succ n =>
      rw [bvalues] at h
      obtain ⟨p, s₁, -, h⟩ := Call.bind_ok.mp h
      obtain ⟨ps, s₂, hRest, h⟩ := Call.bind_ok.mp h
      cases h
      rw [List.length_cons, List.length_cons, ih (Nat.le_of_succ_le_succ hn) hRest]

/-- A function is passed a list of arguments as it is meant, if the list is not empty and its values are evaluated so. -/
theorem buildArgs_pass {α : Type} {run : BtpFunctions σ V F} {args : List (RValue V F)} (hFew : FewArgs args.length)
    (hLength : args.length ≠ 0) (hArgs : bvalues run (args.length + 1) args = evaluatedArgs run args)
    (function : Int → List (Entry V) → Call σ α) :
    (buildArgs args.length fun n => bvalues run n args) >>= function (int32 args.length) =
      evaluatedArgs run args >>= pass function := by
  rw [buildArgs_eq hFew hLength _ fun s vals t h => bvalues_length run (Nat.le_succ _) h, hArgs, bind_assoc]
  apply Call.bind_congr_ok
  intro s vals t hRun
  rw [← hArgs] at hRun
  rw [pure_bind, pass, int32_of_few hFew, bvalues_length run (Nat.le_succ _) hRun]

namespace RValue

mutual

/-- A call all of whose calls have arguments is made as it is meant. -/
theorem Argued.bvalue_eq (run : BtpFunctions σ V F) :
    (rv : RValue V F) → rv.Sized → rv.Argued → bvalue run rv = evaluated run rv
  | .value _, _, _ => rfl
  | .func d_func d_args, hSized, hArgued => by
    have hLength : d_args.length ≠ 0 := fun h => hArgued.1 (List.length_eq_zero_iff.mp h)
    have hArgs := AllArgued.bvalues_eq run d_args (d_args.length + 1) (Nat.le_succ _) hSized.2 hArgued.2
    exact buildArgs_pass hSized.1 hLength hArgs (run d_func)
  | .funcNull _, _, hArgued => absurd hArgued not_false

theorem AllArgued.bvalues_eq (run : BtpFunctions σ V F) :
    (args : List (RValue V F)) → (n : Nat) → args.length ≤ n → AllSized args → AllArgued args →
      bvalues run n args = evaluatedArgs run args
  | [], n, _, _, _ => by
    cases n with
    | zero => rfl
    | succ n => rfl
  | arg :: args, 0, hn, _, _ => absurd hn (Nat.not_succ_le_zero _)
  | arg :: args, n + 1, hn, hSized, hArgued => by
    rw [bvalues, evaluatedArgs, Argued.bvalue_eq run arg hSized.1 hArgued.1,
      AllArgued.bvalues_eq run args n (Nat.le_of_succ_le_succ hn) hSized.2 hArgued.2]

end

end RValue

/-! ## A function that looks at the end of its array -/

/-- The function returns a null pointer if the last entry of `argv` is one. -/
def strict (_ : Int) (argv : List (Entry V)) : Call Unit (Option V) := fun s =>
  match argv.getLast? with
  | some (.pointer none) => .ok none s
  | _ => .error (.Error "The arguments have no end.") s

theorem strict_pass (vals : List (Option V)) : pass strict vals () = .ok none () := by
  rw [pass, strict, List.getLast?_concat]

theorem strict_unset (n : Int) : ∃ f, strict (V := V) n [.unset] () = .error f () := ⟨_, rfl⟩

namespace RValue

mutual

theorem evaluated_strict : (rv : RValue V F) → ∃ p, evaluated (fun _ => strict) rv () = .ok p ()
  | .value d_value => ⟨some d_value, rfl⟩
  | .func d_func d_args => by
    obtain ⟨vals, hRun⟩ := evaluatedArgs_strict d_args
    refine ⟨none, ?_⟩
    rw [evaluated, Call.bind_of_ok hRun]
    exact strict_pass vals
  | .funcNull d_func => ⟨none, strict_pass []⟩

theorem evaluatedArgs_strict :
    (args : List (RValue V F)) → ∃ vals, evaluatedArgs (fun _ => strict) args () = .ok vals ()
  | [] => ⟨[], rfl⟩
  | arg :: args => by
    obtain ⟨p, hFirst⟩ := evaluated_strict arg
    obtain ⟨ps, hRest⟩ := evaluatedArgs_strict args
    refine ⟨p :: ps, ?_⟩
    rw [evaluatedArgs, Call.bind_of_ok hFirst, Call.bind_of_ok hRest]
    rfl

end

mutual

theorem bvalue_strict_error : (rv : RValue V F) → rv.Sized → ¬ rv.Argued →
    ∃ f, bvalue (fun _ => strict) rv () = .error f ()
  | .value _, _, hArgued => absurd trivial hArgued
  | .func d_func d_args, hSized, hArgued => by
    rw [bvalue]
    by_cases hEmpty : d_args = []
    · subst hEmpty
      obtain ⟨f, hRun⟩ := strict_unset (V := V) (int32 ([] : List (RValue V F)).length)
      refine ⟨f, ?_⟩
      rw [List.length_nil, buildArgs_zero, pure_bind]
      exact hRun
    · have hLength : d_args.length ≠ 0 := fun h => hEmpty (List.length_eq_zero_iff.mp h)
      have hSome : ¬ AllArgued d_args := fun h => hArgued ⟨hEmpty, h⟩
      obtain ⟨f, hRun⟩ := bvalues_strict_error d_args (d_args.length + 1) (Nat.le_succ _) hSized.2 hSome
      refine ⟨f, ?_⟩
      rw [buildArgs_eq hSized.1 hLength _ fun s vals t h => bvalues_length _ (Nat.le_succ _) h, bind_assoc,
        Call.bind_error]
      exact .inl hRun
  | .funcNull d_func, _, _ => ⟨.undefined, rfl⟩

theorem bvalues_strict_error : (args : List (RValue V F)) → (n : Nat) → args.length ≤ n → AllSized args →
    ¬ AllArgued args → ∃ f, bvalues (fun _ => strict) n args () = .error f ()
  | [], _, _, _, hArgued => absurd trivial hArgued
  | arg :: args, 0, hn, _, _ => absurd hn (Nat.not_succ_le_zero _)
  | arg :: args, n + 1, hn, hSized, hArgued => by
    rw [bvalues]
    by_cases hFirst : arg.Argued
    · have hRest : ¬ AllArgued args := fun h => hArgued ⟨hFirst, h⟩
      obtain ⟨f, hError⟩ := bvalues_strict_error args n (Nat.le_of_succ_le_succ hn) hSized.2 hRest
      obtain ⟨p, hRun⟩ := evaluated_strict arg
      refine ⟨f, ?_⟩
      rw [hFirst.bvalue_eq _ arg hSized.1, Call.bind_of_ok hRun, Call.bind_error]
      exact .inl hError
    · obtain ⟨f, hError⟩ := bvalue_strict_error arg hSized.1 hFirst
      refine ⟨f, ?_⟩
      rw [Call.bind_error]
      exact .inl hError

end

end RValue

open RValue

/-- Whatever the functions do, the rvalue is evaluated with all calls made as they are meant. -/
def EvaluatedAsMeant (rv : RValue V F) : Prop :=
  ∀ (σ : Type) (run : BtpFunctions σ V F), bvalue run rv = evaluated run rv

/-- Whatever the functions do, the call of a function is made as it is meant, and all calls in its arguments. -/
def CalledAsMeant (args : Option (List (RValue V F))) : Prop :=
  ∀ (σ α : Type) (run : BtpFunctions σ V F) (function : Int → List (Entry V) → Call σ α),
    callFunction run function args = passedArgs run function args

theorem evaluatedAsMeant_iff {rv : RValue V F} (h : rv.Sized) : EvaluatedAsMeant rv ↔ rv.Argued := by
  constructor
  · intro hMeant
    by_contra hArgued
    obtain ⟨f, hError⟩ := bvalue_strict_error rv h hArgued
    obtain ⟨p, hRun⟩ := evaluated_strict rv
    rw [hMeant Unit fun _ => strict, hRun] at hError
    cases hError
  · intro hArgued σ run
    exact hArgued.bvalue_eq run rv h

theorem callFunction_eq {σ α : Type} {args : List (RValue V F)} (hFew : FewArgs args.length) (hSized : AllSized args)
    (hNonempty : args ≠ []) (hArgued : AllArgued args) (run : BtpFunctions σ V F)
    (function : Int → List (Entry V) → Call σ α) :
    callFunction run function (some args) = passedArgs run function (some args) := by
  have hLength : args.length ≠ 0 := fun h => hNonempty (List.length_eq_zero_iff.mp h)
  have hArgs := hArgued.bvalues_eq run args (args.length + 1) (Nat.le_succ _) hSized
  exact buildArgs_pass hFew hLength hArgs function

theorem calledAsMeant_iff {args : Option (List (RValue V F))} (hFew : FewArgs (args.getD []).length)
    (hSized : AllSized (args.getD [])) :
    CalledAsMeant args ↔ args.getD [] ≠ [] ∧ AllArgued (args.getD []) := by
  constructor
  · intro hMeant
    have hStrict := hMeant Unit (Option V) (fun _ => strict) strict
    have hRight : passedArgs (fun _ => strict) strict args () = .ok none () := by
      obtain ⟨vals, hRun⟩ := evaluatedArgs_strict (args.getD [])
      rw [passedArgs, Call.bind_of_ok hRun]
      exact strict_pass vals
    rw [← hStrict] at hRight
    cases args with
    | none =>
      obtain ⟨f, hError⟩ := strict_unset (V := V) 0
      have hLeft : callFunction (fun _ : F => strict (V := V)) strict none () = .error f () := hError
      rw [hRight] at hLeft
      cases hLeft
    | some args =>
      rw [Option.getD_some] at hFew hSized ⊢
      have hNonempty : args ≠ [] := by
        rintro rfl
        obtain ⟨f, hError⟩ := strict_unset (V := V) (argc (some ([] : List (RValue V F))))
        have hLeft : callFunction (fun _ : F => strict (V := V)) strict (some []) () = .error f () := by
          rw [callFunction, buildBtpArgs, List.length_nil, buildArgs_zero, pure_bind]
          exact hError
        rw [hRight] at hLeft
        cases hLeft
      refine ⟨hNonempty, ?_⟩
      by_contra hArgued
      have hLength : args.length ≠ 0 := fun h => hNonempty (List.length_eq_zero_iff.mp h)
      obtain ⟨f, hError⟩ := bvalues_strict_error args (args.length + 1) (Nat.le_succ _) hSized hArgued
      have hLeft : callFunction (fun _ : F => strict (V := V)) strict (some args) () = .error f () := by
        rw [callFunction, buildBtpArgs, buildArgs_eq hFew hLength _
          fun s vals t h => bvalues_length _ (Nat.le_succ _) h, bind_assoc, Call.bind_error]
        exact .inl hError
      rw [hRight] at hLeft
      cases hLeft
  · rintro ⟨hNonempty, hArgued⟩ σ α run function
    cases args with
    | none => exact absurd rfl hNonempty
    | some args => exact callFunction_eq hFew hSized hNonempty hArgued run function

/-- The calls of an expression are made as they are meant if and only if each of them has arguments: the call of a
function, and an rvalue with the calls in it. -/
theorem calls_as_meant_iff :
    (∀ args : Option (List (RValue V F)), FewArgs (args.getD []).length → AllSized (args.getD []) →
      (CalledAsMeant args ↔ args.getD [] ≠ [] ∧ AllArgued (args.getD []))) ∧
    ∀ rv : RValue V F, rv.Sized → (EvaluatedAsMeant rv ↔ rv.Argued) :=
  ⟨fun _ hFew hSized => calledAsMeant_iff hFew hSized, fun _ h => evaluatedAsMeant_iff h⟩

/-- A function called with the variable 1 and what a function of the variable 2 returns. -/
theorem nested_call_as_meant : CalledAsMeant (some [RValue.value (F := String) 1, .func "f" [.value 2]]) := by
  refine (calls_as_meant_iff.1 _ ?_ ?_).mpr ⟨by simp, ?_⟩
  · decide
  · exact ⟨trivial, ⟨by decide, trivial, trivial⟩, trivial⟩
  · exact ⟨trivial, ⟨by simp, trivial, trivial⟩, trivial⟩

/-- Without arguments the only entry of `argv` is not set, and a call as an argument goes through the null pointer. -/
theorem call_without_arguments :
    buildBtpArgs (fun _ : String => strict) (none : Option (List (RValue Nat String))) () = .ok [.unset] () ∧
      ¬ CalledAsMeant (none : Option (List (RValue Nat String))) ∧
        bvalue (fun _ => strict) (RValue.funcNull (V := Nat) "f") () = .error .undefined () := by
  refine ⟨rfl, fun h => ?_, rfl⟩
  have hFew : FewArgs ((none : Option (List (RValue Nat String))).getD []).length := by decide
  exact ((calledAsMeant_iff hFew trivial).mp h).1 rfl

end Libdap.Constraint
