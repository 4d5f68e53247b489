import Libdap.Dap2.SendFlags

/-! # A search finds a variable at its own address -/

namespace Libdap.Dap2
open Constraint
set_option autoImplicit false

/-- What was found is at its address, in the variable at `here`. -/
def Reaches (v : Variable) (here : Addr) (found : Found) : Prop :=
  ∃ a, found.1 = here ++ a ∧ v.sub a = some found.2

/-- What was found is in one of the variables, whose places begin at `i`. -/
def ReachesAny (vars : List Variable) (here : Addr) (i : Nat) (found : Found) : Prop :=
  ∃ j v, vars[j]? = some v ∧ Reaches v (here ++ [i + j]) found

theorem Reaches.self (v : Variable) (here : Addr) : Reaches v here (here, v) :=
  ⟨[], (List.append_nil here).symm, rfl⟩

theorem ReachesAny.head {v : Variable} {vs : List Variable} {here : Addr} {i : Nat} {found : Found}
    (h : Reaches v (here ++ [i]) found) : ReachesAny (v :: vs) here i found := ⟨0, v, rfl, h⟩

theorem ReachesAny.tail {v : Variable} {vs : List Variable} {here : Addr} {i : Nat} {found : Found}
    (h : ReachesAny vs here (i + 1) found) : ReachesAny (v :: vs) here i found := by
  obtain ⟨j, u, hAt, hReaches⟩ := h
  exact ⟨j + 1, u, hAt, by rwa [← Nat.add_assoc, Nat.add_right_comm]⟩

theorem Reaches.part {v : Variable} {here : Addr} {found : Found}
    (h : ReachesAny v.parts here 0 found) : Reaches v here found := by
  obtain ⟨j, u, hAt, a, hAddr, hSub⟩ := h
  refine ⟨j :: a, by rw [hAddr, Nat.zero_add, List.append_assoc]; rfl, ?_⟩
  rw [Variable.sub, hAt]
  exact hSub

theorem ReachesAny.locate {vars : List Variable} {found : Found} (h : ReachesAny vars [] 0 found) :
    locate vars found.1 = some found.2 := by
  obtain ⟨j, v, hAt, a, hAddr, hSub⟩ := h
  rw [hAddr, List.nil_append, Nat.zero_add, List.singleton_append, Dap2.locate, hAt]
  exact hSub

theorem named_reaches {name : Word} {vars : List Variable} {here : Addr} {i j : Nat} {v : Variable}
    (h : named name i vars = some (j, v)) : ReachesAny vars here i (here ++ [j], v) := by
  induction vars generalizing i with
  | nil => cases h
  | cons u us ih =>
    rw [named] at h
    split at h
    · cases h
      exact .head (.self _ _)
    · exact .tail (ih h)

section
variable (unset : Word)

theorem gridVar_reaches {arrayVar : Variable} {mapVars : List Variable} {here : Addr} {name : Word}
    {s : Stack} {found : Found} (h : (gridVar arrayVar mapVars here name s).1 = some found) :
    ReachesAny (arrayVar :: mapVars) here 0 found := by
  rw [gridVar] at h
  split at h
  · rename_i hNamed
    cases h
    exact named_reaches hNamed
  · cases h

mutual

theorem leafVar_reaches (v : Variable) (here : Addr) (n : Word) (s : Stack) (found : Found)
    (h : (leafVar unset v here n s).1 = some found) : Reaches v here found := by
  cases v with
  | simple name => cases h
  | array name element =>
    apply Reaches.part (v := .array name element)
    apply ReachesAny.head
    rw [leafVar] at h
    split at h
    · split at h
      · cases h
        exact .self element _
      · split at h
        · rename_i found' s' hElement
          cases h
          exact leafVar_reaches element _ _ s _ (congrArg Prod.fst hElement)
        · cases h
    · cases h
      exact .self element _
  | fields kind name vars =>
    exact .part (v := .fields kind name vars) (leafMatch_reaches vars here 0 _ s found h)
  | grid name arrayVar mapVars => exact .part (v := .grid name arrayVar mapVars) (gridVar_reaches h)

theorem leafMatch_reaches (vars : List Variable) (here : Addr) (i : Nat) (name : Word) (s : Stack)
    (found : Found) (h : (leafMatch unset vars here i name s).1 = some found) :
    ReachesAny vars here i found := by
  cases vars with
  | nil => cases h
  | cons v vs =>
    rw [leafMatch] at h
    split at h
    · cases h
      exact .head (.self v _)
    · split at h
      · split at h
        · rename_i found' s' hElement
          cases h
          exact .head (leafVar_reaches v _ _ s _ (congrArg Prod.fst hElement))
        · exact .tail (leafMatch_reaches vs here (i + 1) name _ found h)
      · exact .tail (leafMatch_reaches vs here (i + 1) name s found h)

end

theorem Reaches.inside {v w : Variable} {here a : Addr} {found : Found} (hv : Reaches v here (a, w))
    (hw : Reaches w a found) : Reaches v here found := by
  obtain ⟨b, hAddr, hSub⟩ := hv
  obtain ⟨c, hFound, hSub'⟩ := hw
  dsimp only at hAddr hSub
  refine ⟨b ++ c, by rw [hFound, hAddr, List.append_assoc], ?_⟩
  rw [sub_append, hSub]
  exact hSub'

theorem ReachesAny.inside {vars : List Variable} {w : Variable} {here a : Addr} {i : Nat}
    {found : Found} (hv : ReachesAny vars here i (a, w)) (hw : Reaches w a found) :
    ReachesAny vars here i found := by
  obtain ⟨j, v, hAt, hReaches⟩ := hv
  exact ⟨j, v, hAt, hReaches.inside hw⟩

theorem exact_reaches (k : Nat) :
    (∀ v here n s found, (exactVar unset k v here n s).1 = some found → Reaches v here found) ∧
      ∀ vars here name s found, (exactMatch unset k vars here name s).1 = some found →
        ReachesAny vars here 0 found := by
  induction k with
  | zero =>
    constructor
    · intro v here n s found h
      rw [exactVar] at h
      cases h
    · intro vars here name s found h
      rw [exactMatch] at h
      cases h
  | succ k ih =>
    obtain ⟨ihVar, ihMatch⟩ := ih
    constructor
    · intro v here n s found h
      cases v with
      | simple name => cases h
      | array name element =>
        apply Reaches.part (v := .array name element)
        apply ReachesAny.head
        rw [exactVar] at h
        split at h
        · split at h
          · cases h
            exact .self element _
          · split at h
            · rename_i found' s' hElement
              cases h
              exact ihVar element _ _ s _ (congrArg Prod.fst hElement)
            · cases h
        · cases h
          exact .self element _
      | fields kind name vars =>
        exact .part (v := .fields kind name vars) (ihMatch vars here _ s found h)
      | grid name arrayVar mapVars => exact .part (v := .grid name arrayVar mapVars) (gridVar_reaches h)
    · intro vars here name s found h
      rw [exactMatch] at h
      split at h
      · rename_i hNamed
        cases h
        exact named_reaches hNamed
      · split at h
        · cases h
        · split at h
          · cases h
          · rename_i a v hAggregate
            exact (ihMatch vars here _ [] (a, v) hAggregate).inside (ihVar v a _ _ found h)

namespace DDS

variable {d : DDS}

theorem leafMatchFrom_reaches (vars : List Variable) (i : Nat) (n : Word) (s : Stack) (found : Found)
    (h : (leafMatchFrom unset vars i n s).1 = some found) : ReachesAny vars [] i found := by
  induction vars generalizing i s with
  | nil => cases h
  | cons v vs ih =>
    rw [leafMatchFrom] at h
    split at h
    · cases h
      exact .head (.self v _)
    · split at h
      · split at h
        · rename_i found' s' hElement
          cases h
          exact .head (leafVar_reaches unset v _ _ s _ (congrArg Prod.fst hElement))
        · exact .tail (ih (i + 1) _ h)
      · exact .tail (ih (i + 1) s h)

/-- The active container is a variable of the dataset. -/
def ContainerInside (d : DDS) : Prop := ∀ found, d.container = some found → ReachesAny d.vars [] 0 found

theorem from_reaches (hContainer : d.ContainerInside) (k : Nat) :
    (∀ name s found, (d.exactMatchFrom unset k name s).1 = some found →
      ReachesAny d.vars [] 0 found) ∧
      ∀ n s found, (d.varFrom unset k n s).1 = some found → ReachesAny d.vars [] 0 found := by
  induction k with
  | zero =>
    constructor
    · intro name s found h
      rw [exactMatchFrom] at h
      cases h
    · intro n s found h
      rw [varFrom] at h
      cases h
  | succ k ih =>
    obtain ⟨ihMatch, ihVar⟩ := ih
    constructor
    · intro name s found h
      rw [exactMatchFrom] at h
      split at h
      · rename_i i v hNamed
        cases h
        have hReaches : ReachesAny d.vars [] 0 ([] ++ [i], v) := named_reaches hNamed
        exact hReaches
      · split at h
        · cases h
        · split at h
          · rename_i a v s' hAggregate
            exact (ihVar _ s (a, v) (congrArg Prod.fst hAggregate)).inside
              ((exact_reaches unset _).1 v a _ _ found h)
          · cases h
    · intro n s found h
      rw [varFrom] at h
      split at h
      · rename_i a container hActive
        exact (hContainer _ hActive).inside (leafVar_reaches unset container a _ s found h)
      · split at h
        · rename_i found' s' hExact
          cases h
          exact ihMatch _ s _ (congrArg Prod.fst hExact)
        · exact leafMatchFrom_reaches unset d.vars 0 _ _ found h

theorem var_located (hContainer : d.ContainerInside) {n : Word} {s : Stack} {a : Addr} {v : Variable}
    (h : (d.var unset n s).1 = some (a, v)) : locate d.vars a = some v :=
  ((from_reaches unset hContainer (fuel n)).2 n s (a, v) h).locate

end DDS

end

end Libdap.Dap2
