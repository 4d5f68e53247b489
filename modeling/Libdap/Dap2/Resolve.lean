import Libdap.Dap2.Path
import Libdap.Dap2.SendFlags

/-! # The variable that a name in a constraint stands for -/

namespace Libdap.Dap2
open Constraint
set_option autoImplicit false

/-! ## What a search pushes -/

/-- The variables above the one that was found, up to the one that the search began at. -/
def Pushed (s' s : Stack) (here a : Addr) : Prop :=
  ∀ p, p ∈ s' ↔ p ∈ s ∨ ∃ q, q <+: a ∧ q ≠ a ∧ p = here ++ q

theorem properPrefix_cons {i : Nat} {a q : Addr} :
    (q <+: i :: a ∧ q ≠ i :: a) ↔ q = [] ∨ ∃ r, q = i :: r ∧ r <+: a ∧ r ≠ a := by
  constructor
  · rintro ⟨hPrefix, hProper⟩
    rcases List.prefix_cons_iff.mp hPrefix with rfl | ⟨r, rfl, hRest⟩
    · exact .inl rfl
    · exact .inr ⟨r, rfl, hRest, fun hEq => hProper (by rw [hEq])⟩
  · rintro (rfl | ⟨r, rfl, hRest, hProper⟩)
    · exact ⟨List.nil_prefix, by simp⟩
    · exact ⟨List.cons_prefix_cons.mpr ⟨rfl, hRest⟩, fun hEq => hProper (List.cons.inj hEq).2⟩

theorem Pushed.iff_cons {s' s : Stack} {here a : Addr} {i : Nat} :
    Pushed s' s here (i :: a) ↔
      ∀ p, p ∈ s' ↔ p ∈ s ∨ p = here ∨ ∃ q, q <+: a ∧ q ≠ a ∧ p = here ++ [i] ++ q := by
  apply forall_congr'
  intro p
  apply iff_congr Iff.rfl
  apply or_congr Iff.rfl
  constructor
  · rintro ⟨q, hPrefix, hProper, rfl⟩
    rcases properPrefix_cons.mp ⟨hPrefix, hProper⟩ with rfl | ⟨r, rfl, hRest, hNe⟩
    · exact .inl (List.append_nil here)
    · exact .inr ⟨r, hRest, hNe, by simp⟩
  · rintro (rfl | ⟨r, hRest, hNe, rfl⟩)
    · exact ⟨[], List.nil_prefix, by simp, (List.append_nil p).symm⟩
    · obtain ⟨hPrefix, hProper⟩ := properPrefix_cons.mpr (.inr ⟨r, rfl, hRest, hNe⟩)
      exact ⟨i :: r, hPrefix, hProper, by simp⟩

theorem Pushed.single (s : Stack) (here : Addr) (i : Nat) : Pushed (here :: s) s here [i] := by
  rw [Pushed.iff_cons]
  intro p
  simp [or_comm]

theorem Pushed.before {s' s : Stack} {here a : Addr} {i : Nat}
    (h : Pushed s' (here :: s) (here ++ [i]) a) : Pushed s' s here (i :: a) := by
  rw [Pushed.iff_cons]
  intro p
  rw [h p, List.mem_cons, or_comm (a := p = here), or_assoc]

theorem Pushed.after {s' s : Stack} {here a : Addr} {i : Nat}
    (h : Pushed s' s (here ++ [i]) a) : Pushed (here :: s') s here (i :: a) := by
  rw [Pushed.iff_cons]
  intro p
  rw [List.mem_cons, h p, or_left_comm]

/-! ## The searches -/

theorem named_of_nodup {vars : List Variable} {v : Variable} {i : Nat} (k : Nat)
    (hDistinct : (vars.map Variable.name).Nodup) (hAt : vars[i]? = some v) :
    named v.name k vars = some (k + i, v) := by
  induction vars generalizing i k with
  | nil => simp at hAt
  | cons u us ih =>
    rw [List.map_cons, List.nodup_cons] at hDistinct
    cases i with
    | zero =>
      rw [List.getElem?_cons_zero, Option.some.injEq] at hAt
      rw [named, hAt, if_pos rfl, Nat.add_zero]
    | succ i =>
      rw [List.getElem?_cons_succ] at hAt
      have hNe : u.name ≠ v.name := by
        intro hEq
        exact hDistinct.1 (hEq ▸ List.mem_map_of_mem (List.mem_of_getElem? hAt))
      rw [named, if_neg hNe, ih (k + 1) hDistinct.2 hAt, Nat.add_right_comm, Nat.add_assoc]

theorem named_none {vars : List Variable} {name : Word} (k : Nat) (h : ∀ u ∈ vars, u.name ≠ name) :
    named name k vars = none := by
  induction vars generalizing k with
  | nil => rfl
  | cons u us ih =>
    rw [named, if_neg (h u List.mem_cons_self)]
    exact ih (k + 1) fun w hw => h w (List.mem_cons_of_mem u hw)

theorem sub_of_locate {v w : Variable} {a : Addr} (h : locate v.parts a = some w) :
    v.sub a = some w := by
  cases a with
  | nil => cases h
  | cons i a => exact h

theorem distinctNames_nil : DistinctNames [] := by
  refine ⟨List.nodup_nil, ?_⟩
  intro a v hLocate
  cases a with
  | nil => cases hLocate
  | cons i a => cases hLocate

theorem DistinctNames.parts {vars : List Variable} {v : Variable} {i : Nat}
    (h : DistinctNames vars) (hAt : vars[i]? = some v) : DistinctNames v.parts := by
  have hSub : ∀ a w, v.sub a = some w → (w.parts.map Variable.name).Nodup := by
    intro a w hw
    apply h.2 (i :: a) w
    rw [locate, hAt]
    exact hw
  exact ⟨hSub [] v rfl, fun a w hw => hSub a w (sub_of_locate hw)⟩

theorem DistinctNames.members {vars : List Variable} {v : Variable} {i : Nat}
    (h : DistinctNames vars) (hAt : vars[i]? = some v) : DistinctNames v.members.2 := by
  have hParts := h.parts hAt
  cases v with
  | simple n => exact hParts
  | fields kind n vs => exact hParts
  | grid n arrayVar mapVars => exact hParts
  | array n element =>
    have hElement := DistinctNames.parts (i := 0) hParts rfl
    cases element with
    | simple m => exact distinctNames_nil
    | array m e => exact distinctNames_nil
    | fields kind m vs => exact hElement
    | grid m arrayVar mapVars => exact hElement

theorem distinctNames_of_parts {vars : List Variable} (hNames : (vars.map Variable.name).Nodup)
    (hParts : ∀ v ∈ vars, DistinctNames v.parts) : DistinctNames vars := by
  refine ⟨hNames, ?_⟩
  intro a w hLocate
  cases a with
  | nil => cases hLocate
  | cons i a =>
    rw [locate] at hLocate
    cases hAt : vars[i]? with
    | none => simp [hAt] at hLocate
    | some v =>
      rw [hAt] at hLocate
      have hBelow := hParts v (List.mem_of_getElem? hAt)
      cases a with
      | nil =>
        cases hLocate
        exact hBelow.1
      | cons j b => exact hBelow.2 (j :: b) w hLocate

section
variable (unset : Word)

/-- The search in a list of fields, for every fuel that is enough. -/
def Finds (vars : List Variable) (a : Addr) (names : List Word) (w : Variable) : Prop :=
  ∀ (k : Nat) (here : Addr) (s : Stack), 3 * names.length ≤ k →
    ∃ s', exactMatch unset k vars here (joined names) s = (some (here ++ a, w), s') ∧
      Pushed s' s here a

theorem gridVar_ok {arrayVar w : Variable} {mapVars : List Variable} {a : Addr} {names : List Word}
    (h : Unambiguous (arrayVar :: mapVars) a names w) (hDistinct : DistinctNames (arrayVar :: mapVars))
    (hOne : names.length = 1) (here : Addr) (s : Stack) :
    ∃ s', gridVar arrayVar mapVars here (joined names) s = (some (here ++ a, w), s') ∧
      Pushed s' s here a := by
  cases h with
  | last hAt =>
    rename_i i
    have hNamed := named_of_nodup 0 hDistinct.1 hAt
    rw [gridVar, joined, List.intercalate_singleton, hNamed, Nat.zero_add]
    exact ⟨here :: s, rfl, Pushed.single s here i⟩
  | under hAt hDot hSiblings hPasses hUnder =>
    rw [List.length_cons, Nat.add_eq_right, List.length_eq_zero_iff] at hOne
    exact absurd hOne hUnder.names_ne_nil

theorem exactVar_array {element : Variable} {name : Word} {found : Found} {here : Addr}
    {s s' : Stack} {k : Nat} (n : Word) (hUnescaped : www2id unset name = name)
    (hConstructor : element.isConstructorType = true) (hEmpty : name ≠ []) (hOwn : element.name ≠ name)
    (hElement : exactVar unset k element (here ++ [0]) name s = (some found, s')) :
    exactVar unset (k + 1) (.array n element) here name s = (some found, here :: s') := by
  rw [exactVar, hUnescaped, if_pos hConstructor, if_neg (not_or.mpr ⟨hEmpty, hOwn⟩), hElement]

theorem not_unambiguous_nil {a : Addr} {names : List Word} {v : Variable} :
    ¬ Unambiguous [] a names v := by
  intro h
  cases h with
  | last hAt => cases hAt
  | under hAt => cases hAt

theorem exactVar_ok {v w : Variable} {a : Addr} {names : List Word}
    (hUnder : Unambiguous v.members.2 a names w) (hDistinct : DistinctNames v.members.2)
    (hFinds : Finds unset v.members.2 a names w) (hPasses : v.Passes names)
    (hPercent : ∀ n ∈ names, '%' ∉ n) (k : Nat) (hFuel : 3 * names.length + 2 ≤ k) (here : Addr)
    (s : Stack) :
    ∃ s', exactVar unset k v here (joined names) s = (some (here ++ (v.members.1 ++ a), w), s') ∧
      Pushed s' s here (v.members.1 ++ a) := by
  have hUnescaped : www2id unset (joined names) = joined names :=
    www2id_of_not_mem unset (not_mem_joined hPercent)
  obtain ⟨k, rfl⟩ : ∃ m, k = m + 2 := ⟨k - 2, by omega⟩
  cases v with
  | simple n => exact absurd hUnder not_unambiguous_nil
  | fields kind n vs =>
    rw [exactVar, hUnescaped]
    exact hFinds (k + 1) here s (by omega)
  | grid n arrayVar mapVars =>
    rw [exactVar, hUnescaped]
    exact gridVar_ok hUnder hDistinct hPasses here s
  | array n element =>
    cases element with
    | simple m => exact absurd hUnder not_unambiguous_nil
    | array m e => exact absurd hUnder not_unambiguous_nil
    | fields kind m vs =>
      obtain ⟨s', hFound, hPushed⟩ := hFinds k (here ++ [0]) s (by omega)
      have hElement : exactVar unset (k + 1) (.fields kind m vs) (here ++ [0]) (joined names) s =
          (some (here ++ [0] ++ a, w), s') := by
        rw [exactVar, hUnescaped]
        exact hFound
      have hOwn : (Variable.fields kind m vs).name ≠ joined names := hPasses.2
      rw [exactVar_array unset n hUnescaped rfl hPasses.1 hOwn hElement, List.append_assoc]
      exact ⟨here :: s', rfl, hPushed.after⟩
    | grid m arrayVar mapVars =>
      obtain ⟨hEmpty, hOwn, hOne⟩ := hPasses
      obtain ⟨s', hFound, hPushed⟩ := gridVar_ok hUnder hDistinct hOne (here ++ [0]) s
      have hElement : exactVar unset (k + 1) (.grid m arrayVar mapVars) (here ++ [0]) (joined names) s =
          (some (here ++ [0] ++ a, w), s') := by
        rw [exactVar, hUnescaped]
        exact hFound
      have hName : (Variable.grid m arrayVar mapVars).name ≠ joined names := hOwn
      rw [exactVar_array unset n hUnescaped rfl hEmpty hName hElement, List.append_assoc]
      exact ⟨here :: s', rfl, hPushed.after⟩

theorem exactMatch_ok {vars : List Variable} {a : Addr} {names : List Word} {w : Variable}
    (h : Unambiguous vars a names w) (hDistinct : DistinctNames vars)
    (hPercent : ∀ n ∈ names, '%' ∉ n) : Finds unset vars a names w := by
  induction h with
  | last hAt =>
    rename_i vars i v
    intro k here s hFuel
    obtain ⟨k, rfl⟩ : ∃ m, k = m + 1 := ⟨k - 1, by simp at hFuel; omega⟩
    have hNamed := named_of_nodup 0 hDistinct.1 hAt
    rw [joined, List.intercalate_singleton, exactMatch, hNamed, Nat.zero_add]
    exact ⟨here :: s, rfl, Pushed.single s here i⟩
  | under hAt hDot hSiblings hPasses hUnder ih =>
    rename_i vars i v w a names
    intro k here s hFuel
    have hMembers := hDistinct.members hAt
    have hRest : ∀ n ∈ names, '%' ∉ n := fun n hn => hPercent n (List.mem_cons_of_mem _ hn)
    rw [List.length_cons] at hFuel
    obtain ⟨k, rfl⟩ : ∃ m, k = m + 2 := ⟨k - 2, by omega⟩
    have hAggregate : exactMatch unset (k + 1) vars here (www2id unset v.name) [] =
        (some (here ++ [i], v), [here]) := by
      rw [www2id_of_not_mem unset (hPercent v.name List.mem_cons_self), exactMatch,
        named_of_nodup 0 hDistinct.1 hAt, Nat.zero_add]
    obtain ⟨s', hFound, hPushed⟩ := exactVar_ok unset hUnder hMembers (ih hMembers hRest) hPasses
      hRest (k + 1) (by omega) (here ++ [i]) (here :: s)
    rw [exactMatch, named_none 0 hSiblings]
    dsimp only
    rw [splitDot_joined hDot hUnder.names_ne_nil]
    dsimp only
    rw [hAggregate]
    dsimp only
    rw [hFound, List.append_assoc, List.singleton_append]
    exact ⟨s', rfl, hPushed.before⟩

theorem DDS.var_ok {d : DDS} {a : Addr} {names : List Word} {w : Variable}
    (h : Unambiguous d.vars a names w) (hContainer : d.container = none)
    (hDistinct : DistinctNames d.vars) (hPercent : ∀ n ∈ names, '%' ∉ n) :
    ∃ s, d.var unset (joined names) [] = (some (a, w), s) ∧ ∀ p, p ∈ s ↔ p ≠ [] ∧ p <+: a ∧ p ≠ a := by
  have hUnescaped : www2id unset (joined names) = joined names :=
    www2id_of_not_mem unset (not_mem_joined hPercent)
  have hFuel : ∀ n : Word, ∃ k, fuel n = k + 4 := fun n => ⟨3 * n.length + 1, rfl⟩
  obtain ⟨k, hk⟩ := hFuel (joined names)
  rw [DDS.var, hk, DDS.varFrom, hUnescaped, hContainer]
  cases h with
  | last hAt =>
    rename_i i
    refine ⟨[], ?_, ?_⟩
    · rw [joined, List.intercalate_singleton]
      simp only [DDS.exactMatchFrom, named_of_nodup 0 hDistinct.1 hAt, Nat.zero_add]
    · intro p
      simp only [List.not_mem_nil, false_iff, not_and, not_not]
      intro hNonempty hPrefix
      rcases List.prefix_cons_iff.mp hPrefix with rfl | ⟨r, rfl, hRest⟩
      · exact absurd rfl hNonempty
      · rw [List.prefix_nil.mp hRest]
  | under hAt hDot hSiblings hPasses hUnder =>
    rename_i i v a names
    have hMembers := hDistinct.members hAt
    have hRest : ∀ n ∈ names, '%' ∉ n := fun n hn => hPercent n (List.mem_cons_of_mem _ hn)
    have hAggregate : d.varFrom unset (k + 2) v.name [] = (some ([i], v), []) := by
      rw [DDS.varFrom, www2id_of_not_mem unset (hPercent v.name List.mem_cons_self), hContainer]
      simp only [DDS.exactMatchFrom, named_of_nodup 0 hDistinct.1 hAt, Nat.zero_add]
    have hEnough : 3 * names.length + 2 ≤ fuel (joined names) := by
      have hLength := length_le_joined names
      rw [fuel]
      omega
    obtain ⟨s, hFound, hPushed⟩ := exactVar_ok unset hUnder hMembers
      (exactMatch_ok unset hUnder hMembers hRest) hPasses hRest (fuel (joined names)) hEnough [i] []
    refine ⟨s, ?_, ?_⟩
    · simp only [DDS.exactMatchFrom, named_none 0 hSiblings, splitDot_joined hDot hUnder.names_ne_nil,
        hAggregate, hFound, List.singleton_append]
    · intro p
      rw [hPushed p]
      constructor
      · rintro (hNone | ⟨q, hPrefix, hProper, rfl⟩)
        · cases hNone
        · exact ⟨by simp, properPrefix_cons.mpr (.inr ⟨q, rfl, hPrefix, hProper⟩)⟩
      · rintro ⟨hNonempty, hProper⟩
        rcases properPrefix_cons.mp hProper with hNil | ⟨q, rfl, hPrefix, hNe⟩
        · exact absurd hNil hNonempty
        · exact .inr ⟨q, hPrefix, hNe, rfl⟩

end

/-! ## The name of a variable -/

theorem locate_members {v w : Variable} {a : Addr} (h : locate v.members.2 a = some w) :
    v.sub (v.members.1 ++ a) = some w := by
  cases v with
  | simple n => cases a <;> cases h
  | fields kind n vs => exact sub_of_locate (v := .fields kind n vs) h
  | grid n arrayVar mapVars => exact sub_of_locate (v := .grid n arrayVar mapVars) h
  | array n element =>
    cases element with
    | simple m => cases a <;> cases h
    | array m e => cases a <;> cases h
    | fields kind m vs => exact sub_of_locate (v := .fields kind m vs) h
    | grid m arrayVar mapVars => exact sub_of_locate (v := .grid m arrayVar mapVars) h

theorem Named.locate_eq {vars : List Variable} {a : Addr} {names : List Word} {v : Variable}
    (h : Named vars a names v) : locate vars a = some v := by
  induction h with
  | last hAt =>
    rw [locate, hAt]
    rfl
  | under hAt hUnder ih =>
    rw [locate, hAt]
    exact locate_members ih

/-- The word that the scanner delivers for an unambiguous name resolves to the variable of this name,
and marking it sets the variable, all that is in it, what it is in, and no other. -/
theorem name_reaches_variable (unset : Word) {d : DDS} {a : Addr} {names : List Word} {v : Variable}
    (hDistinct : DistinctNames d.vars) (hContainer : d.container = none)
    (hNamed : Unambiguous d.vars a names v) (hSpell : Spellable names) :
    scan (escapedText names) = .ok [.scanWord (escapedText names)] ∧
      (d.var unset (nameRule unset (escapedText names)) []).1 = some (a, v) ∧
      ∀ (state : Bool) (flags : Flags), ∃ flags',
        d.mark unset (nameRule unset (escapedText names)) state flags = (true, flags') ∧
          Sets state (fun b => (a <+: b ∧ ∃ u, locate d.vars b = some u) ∨ (b ≠ [] ∧ b <+: a))
            flags' flags := by
  have hLocate := hNamed.named.locate_eq
  obtain ⟨s, hFound, hPushed⟩ := DDS.var_ok unset hNamed hContainer hDistinct hSpell.noPercent
  rw [hSpell.nameRule_ok unset]
  refine ⟨hSpell.scan_ok, by rw [hFound], ?_⟩
  intro state flags
  rw [DDS.mark, hFound]
  refine ⟨_, rfl, ((setSendP_sets state v a flags).trans (foldl_setFlag_sets state s _)).congr ?_⟩
  intro b
  rw [hPushed b, within_iff_locate hLocate]
  constructor
  · rintro (hInside | ⟨hNonempty, hAbove⟩)
    · exact .inr hInside
    · by_cases hSelf : b = a
      · subst hSelf
        exact .inr ⟨List.prefix_rfl, v, hLocate⟩
      · exact .inl ⟨hNonempty, hAbove, hSelf⟩
  · rintro (⟨hNonempty, hAbove, _⟩ | hInside)
    · exact .inr ⟨hNonempty, hAbove⟩
    · exact .inl hInside

def cast : Variable :=
  .fields .structureType "cast".toList [.simple "depth".toList, .simple "wind speed".toList]

/-- An Array of Structures in a Structure; a field of theirs has a blank in its name. -/
def stations : List Variable :=
  [.fields .structureType "cruise".toList [.simple "id".toList, .array "cast".toList cast],
    .simple "time".toList]

theorem stations_distinct : DistinctNames stations := by
  have hSimple : ∀ n : Word, DistinctNames (Variable.simple n).parts := fun _ => distinctNames_nil
  have hCast : DistinctNames cast.parts := by
    apply distinctNames_of_parts (by decide)
    rintro v (_ | ⟨_, _ | ⟨_, hNil⟩⟩)
    · exact hSimple _
    · exact hSimple _
    · cases hNil
  have hCasts : DistinctNames [cast] := by
    apply distinctNames_of_parts (by decide)
    intro v hMem
    rw [List.mem_singleton.mp hMem]
    exact hCast
  have hCruise : DistinctNames [.simple "id".toList, .array "cast".toList cast] := by
    apply distinctNames_of_parts (by decide)
    rintro v (_ | ⟨_, _ | ⟨_, hNil⟩⟩)
    · exact hSimple _
    · exact hCasts
    · cases hNil
  apply distinctNames_of_parts (by decide)
  rintro v (_ | ⟨_, _ | ⟨_, hNil⟩⟩)
  · exact hCruise
  · exact hSimple _
  · cases hNil

theorem wind_speed_reached :
    scan "cruise.cast.wind%20speed".toList = .ok [.scanWord "cruise.cast.wind%20speed".toList] ∧
      ((DDS.mk stations none).var [] "cruise.cast.wind speed".toList []).1 =
        some ([0, 1, 0, 1], .simple "wind speed".toList) ∧
      ∀ (state : Bool) (flags : Flags), ∃ flags',
        (DDS.mk stations none).mark [] "cruise.cast.wind speed".toList state flags = (true, flags') ∧
          Sets state (fun b => ([0, 1, 0, 1] <+: b ∧ ∃ u, locate stations b = some u) ∨
            (b ≠ [] ∧ b <+: [0, 1, 0, 1])) flags' flags := by
  have hField : Unambiguous [.simple "depth".toList, .simple "wind speed".toList] [1]
      ["wind speed".toList] (.simple "wind speed".toList) :=
    .last (i := 1) (v := .simple "wind speed".toList) rfl
  have hCast : Unambiguous [.simple "id".toList, .array "cast".toList cast] [1, 0, 1]
      ["cast".toList, "wind speed".toList] (.simple "wind speed".toList) := by
    apply Unambiguous.under (i := 1) (v := .array "cast".toList cast) rfl (by decide) _ _ hField
    · rintro u (_ | ⟨_, _ | ⟨_, hNil⟩⟩)
      · decide
      · decide
      · cases hNil
    · exact ⟨by decide, by decide⟩
  have hNamed : Unambiguous stations [0, 1, 0, 1]
      ["cruise".toList, "cast".toList, "wind speed".toList] (.simple "wind speed".toList) := by
    apply Unambiguous.under (i := 0) (v := .fields .structureType "cruise".toList
      [.simple "id".toList, .array "cast".toList cast]) rfl (by decide) _ trivial hCast
    rintro u (_ | ⟨_, _ | ⟨_, hNil⟩⟩)
    · decide
    · decide
    · cases hNil
  have hSpell : Spellable ["cruise".toList, "cast".toList, "wind speed".toList] :=
    ⟨by decide, by decide, by decide, by decide, by decide⟩
  exact name_reaches_variable [] (d := ⟨stations, none⟩) stations_distinct rfl hNamed hSpell

/-- A name with a dot hides the fields of its Structure. -/
theorem dotted_name_not_found :
    ¬ ∀ (unset : Word) (d : DDS) (a : Addr) (names : List Word) (v : Variable),
      DistinctNames d.vars → d.container = none → Named d.vars a names v →
        (d.var unset (nameRule unset (escapedText names)) []).1 = some (a, v) := by
  intro h
  have hDistinct : DistinctNames [.fields .structureType "a.b".toList [.simple "c".toList]] := by
    apply distinctNames_of_parts (by decide)
    intro v hMem
    rw [List.mem_singleton.mp hMem]
    apply distinctNames_of_parts (by decide)
    intro w hField
    rw [List.mem_singleton.mp hField]
    exact distinctNames_nil
  have hNamed : Named [.fields .structureType "a.b".toList [.simple "c".toList]] [0, 0]
      ["a.b".toList, "c".toList] (.simple "c".toList) :=
    .under (i := 0) (v := .fields .structureType "a.b".toList [.simple "c".toList]) rfl
      (.last (i := 0) (v := .simple "c".toList) rfl)
  have hFound := h [] ⟨[.fields .structureType "a.b".toList [.simple "c".toList]], none⟩ [0, 0]
    ["a.b".toList, "c".toList] (.simple "c".toList) hDistinct rfl hNamed
  have hNone : ((DDS.mk [.fields .structureType "a.b".toList [.simple "c".toList]] none).var []
      (nameRule [] (escapedText ["a.b".toList, "c".toList])) []).1.isNone = true := by
    decide
  rw [hFound] at hNone
  cases hNone

end Libdap.Dap2
