import Libdap.Constraint.Projection

/-! # What an expression does to one array

An expression that returns did to each array a sequence of actions that its text determines.
-/

namespace Libdap.Constraint
open Core Dap2
set_option autoImplicit false

inductive Action
  | process (indices : List Index)
  | setSendP (state : Bool)
  | constrainMap (index : Index)

def Action.call : Action → Call Dap2.Array Unit
  | process indices => processArrayIndices indices
  | setSendP state => Constraint.setSendP state
  | constrainMap index => Constraint.constrainMap index

def perform : List Action → Call Dap2.Array Unit
  | [] => pure ()
  | action :: actions => do
    action.call
    perform actions

theorem perform_cons_ok {action : Action} {actions : List Action} {a c : Dap2.Array} :
    perform (action :: actions) a = .ok () c ↔
      ∃ b, action.call a = .ok () b ∧ perform actions b = .ok () c := by
  rw [perform, Call.bind_ok]
  constructor
  · rintro ⟨_, b, hHead, hTail⟩
    exact ⟨b, hHead, hTail⟩
  · rintro ⟨b, hHead, hTail⟩
    exact ⟨(), b, hHead, hTail⟩

theorem perform_append {first second : List Action} {a b c : Dap2.Array}
    (hFirst : perform first a = .ok () b) (hSecond : perform second b = .ok () c) :
    perform (first ++ second) a = .ok () c := by
  induction first generalizing a with
  | nil =>
    obtain ⟨_, rfl⟩ := Call.pure_ok.mp hFirst
    exact hSecond
  | cons action actions ih =>
    obtain ⟨a₁, hHead, hTail⟩ := perform_cons_ok.mp hFirst
    exact perform_cons_ok.mpr ⟨a₁, hHead, ih hTail⟩

section
variable {V : Type}

/-- When it returns, the call did these actions to the array `t`. -/
def Views {α : Type} (t : V) (x : Call (State V) α) (actions : List Action) : Prop :=
  ∀ s s' val, x s = .ok val s' → perform actions (s.arrays t) = .ok () (s'.arrays t)

namespace Views

variable {t : V} {α β : Type}

theorem pure (val : α) : Views t (Pure.pure val : Call (State V) α) [] := by
  intro s s' _ h
  obtain ⟨_, rfl⟩ := Call.pure_ok.mp h
  rfl

theorem throw (f : Fault) (actions : List Action) :
    Views t (MonadExcept.throw f : Call (State V) α) actions :=
  fun _ _ _ h => absurd h Call.throw_not_ok

theorem bind {x : Call (State V) α} {f : α → Call (State V) β} {first second : List Action}
    (hFirst : Views t x first) (hSecond : ∀ val, Views t (f val) second) :
    Views t (x >>= f) (first ++ second) := by
  intro s s' _ h
  obtain ⟨val, s₁, hx, hf⟩ := Call.bind_ok.mp h
  exact perform_append (hFirst s s₁ val hx) (hSecond val s₁ s' _ hf)

theorem andThen {x : Call (State V) α} {y : Call (State V) β} {actions : List Action}
    (hFirst : Views t x actions) (hSecond : Views t y []) : Views t (x >>= fun _ => y) actions := by
  have := hFirst.bind fun _ => hSecond
  rwa [List.append_nil] at this

theorem onArray [DecidableEq V] (v : V) (action : Action) :
    Views t (Constraint.onArray v action.call) (if v = t then [action] else []) := by
  intro s s' _ h
  obtain ⟨a, hCall, rfl⟩ := Call.on_ok.mp h
  split
  · rename_i hSame
    subst hSame
    refine perform_cons_ok.mpr ⟨a, hCall, ?_⟩
    dsimp only
    rw [Function.update_self]
    rfl
  · rename_i hOther
    dsimp only
    rw [Function.update_of_ne (Ne.symm hOther)]
    rfl

end Views

variable [DecidableEq V]

def forMapsActions (t : V) (action : Action) (vs : List V) : List Action :=
  vs.flatMap fun v => if v = t then [action] else []

theorem forMaps_views (t : V) (action : Action) (vs : List V) :
    Views t (forMaps action.call vs) (forMapsActions t action vs) := by
  induction vs with
  | nil => exact .pure ()
  | cons v vs ih => exact (Views.onArray v action).bind fun _ => ih

def constrainMapsActions (t : V) : List Index → List V → List Action
  | index :: indices, v :: vs =>
    (if v = t then [.constrainMap index] else []) ++ constrainMapsActions t indices vs
  | _, _ => []

theorem constrainMaps_views (t : V) (indices : List Index) (vs : List V) :
    Views t (constrainMaps indices vs) (constrainMapsActions t indices vs) := by
  induction indices generalizing vs with
  | nil => exact .pure ()
  | cons index indices ih =>
    cases vs with
    | nil => exact .throw _ _
    | cons v vs => exact (Views.onArray v (.constrainMap index)).bind fun _ => ih vs

namespace Dataset

variable (D : Dataset V) (t : V)

def markActions (n : Word) : List Action :=
  if (D.var n).isSome ∧ t ∈ D.marked n then [.setSendP true] else []

def gridActions (arrayVar : V) (mapVars : List V) (indices : List Index) : List Action :=
  (if arrayVar = t then [.process indices] else []) ++
    (forMapsActions t (.setSendP false) mapVars ++ constrainMapsActions t indices mapVars)

def bracketActions (n : Word) (indices : List Index) : List Action :=
  match D.var n with
  | none => []
  | some v =>
    match D.kind v with
    | .array => if v = t then [.process indices] else []
    | .grid arrayVar mapVars => gridActions t arrayVar mapVars indices ++ D.markActions t n
    | .sequence => D.markActions t n
    | .other =>
      match D.parentIsSequence n.reverse with
      | none => []
      | some _ => D.markActions t n

theorem mark_views (n : Word) : Views t (D.mark n) (D.markActions t n) := by
  intro s s' val h
  rw [mark] at h
  rw [markActions]
  split at h
  · rename_i hVar
    cases h
    rw [if_neg]
    · rfl
    · rw [hVar]
      rintro ⟨hSome, _⟩
      cases hSome
  · rename_i v hVar
    cases h
    rw [hVar]
    dsimp only
    by_cases hIn : t ∈ D.marked n
    · rw [if_pos ⟨rfl, hIn⟩, if_pos hIn]
      rfl
    · rw [if_neg (fun hMarked => hIn hMarked.2), if_neg hIn]
      rfl

theorem processSequenceIndices_views (v : V) (indices : List Index) :
    Views t (processSequenceIndices v indices) [] := by
  induction indices with
  | nil => exact .pure ()
  | cons index indices ih =>
    refine Views.andThen (fun s s' _ h => ?_) ih
    rw [setRowNumberConstraint] at h
    split at h
    · cases h
    · cases h
      rfl

theorem processGridIndices_views (grid arrayVar : V) (mapVars : List V) (indices : List Index) :
    Views t (D.processGridIndices grid arrayVar mapVars indices)
      (gridActions t arrayVar mapVars indices) := by
  intro s s' _ h
  obtain ⟨s₁, _, hGet, h⟩ := Call.bind_ok.mp h
  cases hGet
  split at h
  · exact absurd h Call.throw_not_ok
  · exact (Views.onArray arrayVar (.process indices)).bind
      (fun _ => (forMaps_views t (.setSendP false) mapVars).bind
        fun _ => constrainMaps_views t indices mapVars) _ _ _ h

theorem bracketProjection_views (n : Word) (indices : List Index) :
    Views t (D.bracketProjection n indices) (D.bracketActions t n indices) := by
  rw [bracketProjection, bracketActions]
  cases D.var n with
  | none => exact Views.pure false
  | some v =>
    dsimp only
    cases D.kind v with
    | array => exact (Views.onArray v (.process indices)).andThen (Views.pure true)
    | grid arrayVar mapVars =>
      exact (D.processGridIndices_views t v arrayVar mapVars indices).bind
        fun _ => (D.mark_views t n).andThen (Views.pure true)
    | sequence =>
      refine (D.mark_views t n).andThen ?_
      exact (processSequenceIndices_views t v indices).andThen (Views.pure true)
    | other =>
      dsimp only
      cases D.parentIsSequence n.reverse with
      | none => exact Views.pure false
      | some seq =>
        exact (processSequenceIndices_views t seq indices).bind
          fun _ => (D.mark_views t n).andThen (Views.pure true)

end Dataset

/-- The actions of a clause without the mark at its end. -/
def ArrayProjClause.actions (D : Dataset V) (t : V) : ArrayProjClause → List Action
  | indexed n indices => D.bracketActions t n indices
  | named clause _ => actions D t clause
  | namedIndexed clause n indices =>
    actions D t clause ++ D.bracketActions t (clause.name ++ n) indices

def ProjClause.actions (D : Dataset V) (t : V) : ProjClause → List Action
  | name n => D.markActions t n
  | arrayProjection clause => clause.actions D t ++ D.markActions t clause.name

def actionsOf (D : Dataset V) (t : V) (clauses : List ProjClause) : List Action :=
  clauses.flatMap (ProjClause.actions D t)

theorem bracket_views (D : Dataset V) (t : V) (n : Word) (indices : List Index) :
    Views t (ArrayProjClause.bracket D n indices) (D.bracketActions t n indices) := by
  intro s s' _ h
  obtain ⟨found, s₁, hBracket, hFound⟩ := Call.bind_ok.mp h
  split at hFound
  · obtain ⟨_, rfl⟩ := Call.pure_ok.mp hFound
    exact D.bracketProjection_views t n indices s s' found hBracket
  · exact absurd hFound Call.throw_not_ok

theorem ArrayProjClause.run_views (D : Dataset V) (t : V) (clause : ArrayProjClause) :
    Views t (clause.run D) (clause.actions D t) := by
  induction clause with
  | indexed n indices => exact bracket_views D t n indices
  | named clause n ih => exact ih
  | namedIndexed clause n indices ih =>
    exact ih.bind fun _ => bracket_views D t (clause.name ++ n) indices

theorem ProjClause.run_views (D : Dataset V) (t : V) (clause : ProjClause) :
    Views t (clause.run D) (clause.actions D t) := by
  cases clause with
  | name n =>
    rw [ProjClause.run]
    cases D.var n with
    | none => exact Views.throw _ _
    | some v => exact (D.mark_views t n).andThen (Views.pure ())
  | arrayProjection clause =>
    exact (clause.run_views D t).bind fun _ => (D.mark_views t clause.name).andThen (Views.pure ())

theorem projection_views (D : Dataset V) (t : V) (clauses : List ProjClause) :
    Views t (projection D clauses) (actionsOf D t clauses) := by
  induction clauses with
  | nil => exact Views.pure ()
  | cons clause clauses ih => exact (clause.run_views D t).bind fun _ => ih

end

end Libdap.Constraint
