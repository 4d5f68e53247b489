import Mathlib.Data.List.Forall2
import Mathlib.Data.List.Nodup
import Libdap.Olfs.DimensionSubset
import Libdap.Olfs.SubsetForms

/-! # The requests of a constraint expression

What one field contributes to the expression, and when the whole is one request for every field.
-/

namespace Libdap.Olfs
open Core Constraint
set_option autoImplicit false

/-! ## Texts behind commas -/

def joined : List Word → Word
  | [] => []
  | text :: texts => text ++ texts.flatMap (',' :: ·)

section
variable {x y u v : Word} {xs ys : List Word}

theorem free_of_comma (hx : ',' ∉ x) (hy : ',' ∉ y) (hu : u = [] ∨ u.head? = some ',')
    (hv : v = [] ∨ v.head? = some ',') (h : x ++ u = y ++ v) : x = y ∧ u = v := by
  have hCut (x u : Word) (hx : ',' ∉ x) (hu : u = [] ∨ u.head? = some ',') :
      (x ++ u).takeWhile (· ≠ ',') = x := by
    have hPassed : ∀ c ∈ x, decide (c ≠ ',') = true := fun c hc => decide_eq_true fun hSame => hx (hSame ▸ hc)
    rw [List.takeWhile_append_of_pos hPassed]
    cases u with
    | nil => exact List.append_nil x
    | cons c u =>
      have hComma : c = ',' := by simpa using hu
      rw [hComma, List.takeWhile_cons_of_neg (by simp), List.append_nil]
  have hFirst : x = y := by rw [← hCut x u hx hu, h, hCut y v hy hv]
  exact ⟨hFirst, List.append_cancel_left (hFirst ▸ h)⟩

theorem behind_comma (texts : List Word) :
    texts.flatMap (',' :: ·) = [] ∨ (texts.flatMap (',' :: ·)).head? = some ',' := by
  cases texts with
  | nil => exact .inl rfl
  | cons => exact .inr rfl

theorem flatMap_comma_inj (hLength : xs.length = ys.length) (hx : ∀ x ∈ xs, ',' ∉ x) (hy : ∀ y ∈ ys, ',' ∉ y)
    (h : xs.flatMap (',' :: ·) = ys.flatMap (',' :: ·)) : xs = ys := by
  induction xs generalizing ys with
  | nil => exact (List.length_eq_zero_iff.mp hLength.symm).symm
  | cons x xs ih =>
    cases ys with
    | nil => cases hLength
    | cons y ys =>
      rw [List.flatMap_cons, List.flatMap_cons, List.cons_append, List.cons_append, List.cons.injEq] at h
      obtain ⟨hFirst, hRest⟩ := free_of_comma (hx x List.mem_cons_self) (hy y List.mem_cons_self) (behind_comma xs)
        (behind_comma ys) h.2
      rw [hFirst, ih (Nat.succ.inj hLength) (fun z hz => hx z (List.mem_cons_of_mem _ hz))
        (fun z hz => hy z (List.mem_cons_of_mem _ hz)) hRest]

theorem joined_inj (hLength : xs.length = ys.length) (hx : ∀ x ∈ xs, ',' ∉ x) (hy : ∀ y ∈ ys, ',' ∉ y)
    (h : joined xs = joined ys) : xs = ys := by
  cases xs with
  | nil => exact (List.length_eq_zero_iff.mp hLength.symm).symm
  | cons x xs =>
    cases ys with
    | nil => cases hLength
    | cons y ys =>
      have hBoth : (x :: xs).flatMap (',' :: ·) = (y :: ys).flatMap (',' :: ·) := by
        rw [List.flatMap_cons, List.flatMap_cons, List.cons_append, List.cons_append]
        exact congrArg _ h
      exact flatMap_comma_inj hLength hx hy hBoth

theorem flatMap_comma_length (h : List.Forall₂ (fun r c : Word => r.length < c.length) xs ys) :
    (xs.flatMap (',' :: ·)).length ≤ (ys.flatMap (',' :: ·)).length := by
  induction h with
  | nil => exact Nat.le_refl _
  | cons hFirst _ ih =>
    simp only [List.flatMap_cons, List.length_append, List.length_cons]
    omega

theorem joined_length (h : List.Forall₂ (fun r c : Word => r.length < c.length) xs ys) (hSome : xs ≠ []) :
    (joined xs).length < (joined ys).length := by
  cases h with
  | nil => exact absurd rfl hSome
  | cons hFirst hRest =>
    have hLess := flatMap_comma_length hRest
    simp only [joined, List.length_append]
    omega

end

/-! ## One field -/

variable {timePosition : Word → Word → Except WcsFault Word} {subsets : List RequestedSubset} {s : RequestedSubset}
  {name : Option Word} {c : Clauses} {coordinates : List DomainCoordinate} {dc : DomainCoordinate}

def Printable (timePosition : Word → Word → Except WcsFault Word) (s : RequestedSubset) : Prop :=
  ∃ text, s.constraint timePosition = .ok text

/-- What the subset prints, if it prints. -/
def printed (timePosition : Word → Word → Except WcsFault Word) (s : RequestedSubset) : Word :=
  match s.constraint timePosition with
  | .ok text => text
  | .error _ => []

theorem Printable.eq (h : Printable timePosition s) : s.constraint timePosition = .ok (printed timePosition s) := by
  obtain ⟨text, hText⟩ := h
  rw [printed, hText]

/-- A subset of a field is processed as its kind is. -/
def processed (timePosition : Word → Word → Except WcsFault Word) (name : Option Word) (c : Clauses)
    (s : RequestedSubset) : Clauses :=
  if s.isArrayIndexSubset then
    { c with
      arraySubset := true
      domainCoordinates := c.domainCoordinates.map (setArraySubset s.dimensionId (printed timePosition s)) }
  else
    { c with ssfGridSubsetClause :=
        (if c.ssfGridSubsetClause.length = 0 then "grid(".toList ++ DimensionSubset.appended name
          else c.ssfGridSubsetClause) ++ ',' :: printed timePosition s }

theorem processSubset_eq (timePosition : Word → Word → Except WcsFault Word) (name : Option Word) (c : Clauses)
    (s : RequestedSubset) :
    processSubset timePosition name c s = (s.constraint timePosition).map fun _ => processed timePosition name c s := by
  rw [processSubset, processed, printed, RequestedSubset.constraint]
  cases s.isArrayIndexSubset with
  | true =>
    simp only [if_pos]
    cases s.getDapArrayIndexConstraint <;> rfl
  | false =>
    simp only [Bool.false_eq_true, if_false]
    cases s.getDapGridValueConstraint timePosition <;> rfl

theorem subsets_processed (h : ∀ s ∈ subsets, Printable timePosition s) (c : Clauses) :
    subsets.foldlM (processSubset timePosition name) c = .ok (subsets.foldl (processed timePosition name) c) := by
  induction subsets generalizing c with
  | nil => rfl
  | cons s subsets ih =>
    obtain ⟨hFirst, hRest⟩ := List.forall_mem_cons.mp h
    rw [List.foldlM_cons, processSubset_eq, hFirst.eq]
    exact ih hRest _

theorem printable_of_processed {c c' : Clauses} (h : subsets.foldlM (processSubset timePosition name) c = .ok c') :
    ∀ s ∈ subsets, Printable timePosition s := by
  induction subsets generalizing c with
  | nil => exact fun s hs => absurd hs List.not_mem_nil
  | cons s subsets ih =>
    rw [List.foldlM_cons, processSubset_eq] at h
    cases hText : s.constraint timePosition with
    | error e =>
      rw [hText] at h
      cases h
    | ok text =>
      rw [hText] at h
      exact List.forall_mem_cons.mpr ⟨⟨text, hText⟩, ih h⟩

/-- The index subset of a coordinate. -/
def indexSubset (subsets : List RequestedSubset) (dc : DomainCoordinate) : Option RequestedSubset :=
  subsets.find? fun s => s.isArrayIndexSubset && s.dimensionId = dc.name

/-- A coordinate with its index subset parked on it. -/
def parked (timePosition : Word → Word → Except WcsFault Word) (subsets : List RequestedSubset)
    (dc : DomainCoordinate) : DomainCoordinate :=
  match indexSubset subsets dc with
  | none => dc
  | some s => { dc with arraySubset := some (printed timePosition s) }

theorem parked_name (dc : DomainCoordinate) : (parked timePosition subsets dc).name = dc.name := by
  rw [parked]
  split <;> rfl

theorem parked_again (dc : DomainCoordinate) :
    parked timePosition subsets (parked timePosition subsets dc) = parked timePosition subsets dc := by
  have hSame : indexSubset subsets (parked timePosition subsets dc) = indexSubset subsets dc := by
    rw [indexSubset, parked_name, indexSubset]
  cases hSubset : indexSubset subsets dc with
  | none =>
    rw [parked, hSame, hSubset]
  | some s =>
    rw [parked, hSame, hSubset, parked, hSubset]

/-- Every coordinate has the clause of its subset in the end, whatever the order of the subsets. -/
theorem coordinates_parked (h : (subsets.map (·.dimensionId)).Nodup) (c : Clauses) :
    (subsets.foldl (processed timePosition name) c).domainCoordinates =
      c.domainCoordinates.map (parked timePosition subsets) := by
  induction subsets generalizing c with
  | nil => exact (List.map_id _).symm
  | cons s subsets ih =>
    obtain ⟨hOther, hRest⟩ := List.nodup_cons.mp h
    rw [List.foldl_cons, ih hRest, processed]
    cases hArray : s.isArrayIndexSubset with
    | false =>
      have hPassed (dc : DomainCoordinate) : parked timePosition (s :: subsets) dc =
          parked timePosition subsets dc := by
        rw [parked, indexSubset, List.find?_cons_of_neg (by simp [hArray]), ← indexSubset, parked]
      exact List.map_congr_left fun dc _ => (hPassed dc).symm
    | true =>
      rw [if_pos rfl, List.map_map]
      refine List.map_congr_left fun dc _ => ?_
      rw [Function.comp_apply, setArraySubset]
      by_cases hName : dc.name = s.dimensionId
      · have hNone : ∀ t ∈ subsets, ¬(t.isArrayIndexSubset && t.dimensionId = dc.name) = true := by
          intro t ht hMatch
          have hSame : t.dimensionId = s.dimensionId := by
            rw [← hName]
            exact of_decide_eq_true (Bool.and_eq_true_iff.mp hMatch).2
          exact hOther (List.mem_map.mpr ⟨t, ht, hSame⟩)
        rw [if_pos hName, parked, parked, indexSubset, indexSubset, List.find?_eq_none.mpr hNone,
          List.find?_cons_of_pos (by simp [hArray, hName])]
      · rw [if_neg hName, parked, parked, indexSubset, indexSubset,
          List.find?_cons_of_neg (by simpa using fun _ hSame => hName hSame.symm)]

/-- Whether a subset is by index. -/
def anyIndex (subsets : List RequestedSubset) : Bool := subsets.any (·.isArrayIndexSubset)

theorem arraySubset_processed (subsets : List RequestedSubset) (c : Clauses) :
    (subsets.foldl (processed timePosition name) c).arraySubset = (c.arraySubset || anyIndex subsets) := by
  induction subsets generalizing c with
  | nil => exact (Bool.or_false _).symm
  | cons s subsets ih =>
    rw [List.foldl_cons, ih, processed, anyIndex, anyIndex, List.any_cons]
    cases s.isArrayIndexSubset with
    | true => simp
    | false => simp

def valueSubsets (subsets : List RequestedSubset) : List RequestedSubset :=
  subsets.filter fun s => !s.isArrayIndexSubset

def arguments (texts : List Word) : Word := texts.flatMap (',' :: ·)

theorem opened_processed (subsets : List RequestedSubset) (c : Clauses) (h : c.ssfGridSubsetClause.length ≠ 0) :
    (subsets.foldl (processed timePosition name) c).ssfGridSubsetClause =
      c.ssfGridSubsetClause ++ arguments ((valueSubsets subsets).map (printed timePosition)) := by
  induction subsets generalizing c with
  | nil => exact (List.append_nil _).symm
  | cons s subsets ih =>
    rw [List.foldl_cons, processed, valueSubsets]
    cases hArray : s.isArrayIndexSubset with
    | true =>
      rw [if_pos rfl, List.filter_cons_of_neg (by simp [hArray])]
      exact ih _ h
    | false =>
      rw [if_neg Bool.false_ne_true, if_neg h, ih _ (by simp), List.filter_cons_of_pos (by simp [hArray]),
        List.map_cons, arguments, arguments, List.flatMap_cons, List.append_assoc, valueSubsets]

/-- The call of `grid` is opened by the first value subset. -/
theorem grid_processed (subsets : List RequestedSubset) (coordinates : List DomainCoordinate) (b : Bool) :
    (subsets.foldl (processed timePosition name) ⟨[], b, coordinates⟩).ssfGridSubsetClause =
      if valueSubsets subsets = [] then []
      else "grid(".toList ++ (DimensionSubset.appended name ++
        arguments ((valueSubsets subsets).map (printed timePosition))) := by
  induction subsets generalizing coordinates b with
  | nil => rfl
  | cons s subsets ih =>
    rw [List.foldl_cons, processed, valueSubsets]
    cases hArray : s.isArrayIndexSubset with
    | true =>
      rw [if_pos rfl, ih, List.filter_cons_of_neg (by simp [hArray]), valueSubsets]
    | false =>
      rw [if_neg Bool.false_ne_true, List.length_nil, if_pos rfl, opened_processed _ _ (by simp),
        List.filter_cons_of_pos (by simp [hArray]), if_neg (List.cons_ne_nil _ _), List.map_cons, arguments, arguments,
        List.flatMap_cons, ← valueSubsets]
      simp only [List.append_assoc]

def gridCall (id : Word) (texts : List Word) : Word := "grid(".toList ++ (id ++ (arguments texts ++ [')']))

/-- The clauses of a field, once its coordinates have been parked on. -/
def fieldText (timePosition : Word → Word → Except WcsFault Word) (id : Word) (subsets : List RequestedSubset)
    (coordinates : List DomainCoordinate) : Word :=
  let call := gridCall id ((valueSubsets subsets).map (printed timePosition))
  let indexed := id ++ coordinates.flatMap arrayClause
  if valueSubsets subsets = [] then if anyIndex subsets then indexed else []
  else if anyIndex subsets then call ++ ',' :: indexed else call

theorem fieldExpression_eq {id : Word} (hId : id ≠ []) (h : (subsets.map (·.dimensionId)).Nodup)
    (hPrint : ∀ s ∈ subsets, Printable timePosition s) (coordinates : List DomainCoordinate) :
    fieldExpression timePosition (some id) subsets coordinates =
      .ok (fieldText timePosition id subsets (coordinates.map (parked timePosition subsets)),
        coordinates.map (parked timePosition subsets)) := by
  have hPos : 0 < (id ++ (coordinates.map (parked timePosition subsets)).flatMap arrayClause).length := by
    rw [List.length_append]
    exact Nat.lt_add_right _ (List.length_pos_iff.mpr hId)
  rw [fieldExpression, subsets_processed hPrint, ok_bind]
  simp only [coordinates_parked h, arraySubset_processed, grid_processed, Bool.false_or, DimensionSubset.appended,
    Option.getD_some]
  rw [fieldText]
  by_cases hValues : valueSubsets subsets = []
  · rw [if_pos hValues, if_pos hValues]
    rfl
  · rw [if_neg hValues, if_neg hValues, if_pos (by simp)]
    cases anyIndex subsets with
    | true =>
      rw [if_pos rfl, if_pos rfl, if_pos hPos, gridCall]
      simp only [List.append_assoc, List.cons_append, List.nil_append]
    | false =>
      simp only [Bool.false_eq_true, if_false, List.length_nil, Nat.lt_irrefl, gridCall, List.append_nil,
        List.append_assoc]

theorem exists_kind (h : subsets ≠ []) (hValues : valueSubsets subsets = []) : anyIndex subsets = true := by
  obtain ⟨s, rest, rfl⟩ := List.exists_cons_of_ne_nil h
  have hNot := List.filter_eq_nil_iff.mp hValues s List.mem_cons_self
  rw [anyIndex, List.any_cons, Bool.or_eq_true]
  exact .inl (by simpa using hNot)

theorem fieldText_ne_nil {id : Word} (hId : id ≠ []) (h : subsets ≠ []) (coordinates : List DomainCoordinate) :
    fieldText timePosition id subsets coordinates ≠ [] := by
  rw [fieldText]
  by_cases hValues : valueSubsets subsets = []
  · rw [if_pos hValues, exists_kind h hValues, if_pos rfl]
    exact List.append_ne_nil_of_left_ne_nil hId _
  · rw [if_neg hValues]
    split <;> simp [gridCall]

/-! ## All fields -/

section
variable {coverage : CoverageDescription} {fields : List Word} {ce : Word}

/-- The DAP id of a field. -/
def dapId (coverage : CoverageDescription) (field : Word) : Word := (coverage.dapGridArrayId field).getD []

theorem dapId_eq {field : Word} (h : field ∈ coverage.fields) :
    coverage.dapGridArrayId field = some (dapId coverage field) ∧ dapId coverage field ≠ [] ∧
      ',' ∉ dapId coverage field := by
  obtain ⟨id, hId, hSome, hComma⟩ := coverage.identified field h
  rw [dapId, hId]
  exact ⟨rfl, hSome, hComma⟩

theorem fields_behind (hFields : ∀ field ∈ fields, field ∈ coverage.fields) (hSubsets : subsets ≠ [])
    (h : (subsets.map (·.dimensionId)).Nodup) (hPrint : ∀ s ∈ subsets, Printable timePosition s) (hCe : ce ≠ [])
    {coordinates final : List DomainCoordinate} (hFinal : coordinates.map (parked timePosition subsets) = final) :
    ∃ last, fields.foldlM (appendField timePosition coverage subsets) (ce, coordinates) =
      .ok (ce ++ (fields.map fun field => fieldText timePosition (dapId coverage field) subsets final).flatMap
        (',' :: ·),
        last) := by
  induction fields generalizing ce coordinates with
  | nil => exact ⟨coordinates, by simp [pure, Except.pure]⟩
  | cons field fields ih =>
    obtain ⟨hField, hRest⟩ := List.forall_mem_cons.mp hFields
    obtain ⟨hName, hId, -⟩ := dapId_eq hField
    have hEmpty : subsets.isEmpty = false := by simpa using hSubsets
    have hAgain : final.map (parked timePosition subsets) = final := by
      rw [← hFinal, List.map_map]
      exact List.map_congr_left fun dc _ => parked_again dc
    rw [List.foldlM_cons, appendField, hName, hEmpty, if_neg Bool.false_ne_true, fieldExpression_eq hId h hPrint,
      ok_bind,
      if_pos (List.length_pos_iff.mpr hCe), hFinal]
    obtain ⟨last, hLast⟩ := ih hRest
      (show ce ++ [','] ++ fieldText timePosition (dapId coverage field) subsets final ≠ [] by simp) hAgain
    refine ⟨last, ?_⟩
    rw [ok_bind, hLast]
    simp only [List.map_cons, List.flatMap_cons, List.append_assoc, List.cons_append, List.nil_append]

theorem joined_behind (text : Word) (texts : List Word) :
    joined (text :: texts) = text ++ texts.flatMap (',' :: ·) := rfl

/-- The fields of a request with subsets. -/
theorem fields_appended (hFields : ∀ field ∈ fields, field ∈ coverage.fields) (hSubsets : subsets ≠ [])
    (h : (subsets.map (·.dimensionId)).Nodup) (hPrint : ∀ s ∈ subsets, Printable timePosition s) :
    ∃ last, fields.foldlM (appendField timePosition coverage subsets) ([], coverage.domainCoordinates) =
      .ok (joined (fields.map fun field => fieldText timePosition (dapId coverage field) subsets
        (coverage.domainCoordinates.map (parked timePosition subsets))), last) := by
  cases fields with
  | nil => exact ⟨coverage.domainCoordinates, rfl⟩
  | cons field fields =>
    obtain ⟨hField, hRest⟩ := List.forall_mem_cons.mp hFields
    obtain ⟨hName, hId, -⟩ := dapId_eq hField
    have hEmpty : subsets.isEmpty = false := by simpa using hSubsets
    have hAgain : (coverage.domainCoordinates.map (parked timePosition subsets)).map (parked timePosition subsets) =
        coverage.domainCoordinates.map (parked timePosition subsets) := by
      rw [List.map_map]
      exact List.map_congr_left fun dc _ => parked_again dc
    obtain ⟨last, hLast⟩ := fields_behind hRest hSubsets h hPrint (fieldText_ne_nil hId hSubsets
      (coverage.domainCoordinates.map (parked timePosition subsets))) hAgain
    refine ⟨last, ?_⟩
    rw [List.foldlM_cons, appendField, hName, hEmpty, if_neg Bool.false_ne_true, fieldExpression_eq hId h hPrint,
      ok_bind,
      List.length_nil, if_neg (Nat.lt_irrefl 0), ok_bind, List.nil_append, hLast]
    rfl

/-- The fields of a request without subsets are their names. -/
theorem names_appended (hFields : ∀ field ∈ fields, field ≠ []) {coordinates : List DomainCoordinate} :
    fields.foldlM (appendField timePosition coverage []) ([], coordinates) = .ok (joined fields, coordinates) := by
  have hBehind (fields : List Word) (ce : Word) (hCe : ce ≠ []) :
      fields.foldlM (appendField timePosition coverage []) (ce, coordinates) =
        .ok (ce ++ fields.flatMap (',' :: ·), coordinates) := by
    induction fields generalizing ce with
    | nil => simp [pure, Except.pure]
    | cons field fields ih =>
      rw [List.foldlM_cons, appendField, if_pos (List.length_pos_iff.mpr hCe), List.isEmpty_nil, if_pos rfl, ok_bind,
        ih _ (by simp)]
      simp only [List.flatMap_cons, List.append_assoc, List.cons_append, List.nil_append]
  cases fields with
  | nil => rfl
  | cons field fields =>
    rw [List.foldlM_cons, appendField, List.length_nil, if_neg (Nat.lt_irrefl 0), List.isEmpty_nil, if_pos rfl, ok_bind,
      List.nil_append, hBehind _ _ (hFields field List.mem_cons_self)]
    rfl

end

/-! ## One request for every field -/

/-- A request for a variable, with value constraints and with indices. -/
inductive Restricts (id : Word) : List Word → Option Word → Word → Prop
  | whole : Restricts id [] none id
  | indexed (indices : Word) : Restricts id [] (some indices) (id ++ indices)
  | grid (text : Word) (texts : List Word) : Restricts id (text :: texts) none (gridCall id (text :: texts))
  | gridOfIndexed (text : Word) (texts : List Word) (indices : Word) :
    Restricts id (text :: texts) (some indices) (gridCall (id ++ indices) (text :: texts))
  | indexedGrid (text : Word) (texts : List Word) (indices : Word) :
    Restricts id (text :: texts) (some indices) (gridCall id (text :: texts) ++ indices)

/-- The index clause of a coordinate. -/
def IndexClause (timePosition : Word → Word → Except WcsFault Word) (subsets : List RequestedSubset)
    (dc : DomainCoordinate) (clause : Word) : Prop :=
  (∃ s ∈ subsets, s.isArrayIndexSubset = true ∧ s.dimensionId = dc.name ∧ s.constraint timePosition = .ok clause) ∨
  ((∀ s ∈ subsets, s.isArrayIndexSubset = true → s.dimensionId ≠ dc.name) ∧ clause = "[*]".toList)

/-- The field's DAP variable with the value subsets in any order and the index subsets in the coordinates' order. -/
def FieldRequest (timePosition : Word → Word → Except WcsFault Word) (coverage : CoverageDescription)
    (subsets : List RequestedSubset) (field request : Word) : Prop :=
  ∃ id order args clauses, coverage.dapGridArrayId field = some id ∧ order.Perm (valueSubsets subsets) ∧
    List.Forall₂ (fun s text => s.constraint timePosition = .ok text) order args ∧
    List.Forall₂ (IndexClause timePosition subsets) coverage.domainCoordinates clauses ∧
    Restricts id args (if anyIndex subsets then some clauses.flatten else none) request

def Requested (timePosition : Word → Word → Except WcsFault Word) (coverage : CoverageDescription)
    (subsets : List RequestedSubset) (ce : Word) : Prop :=
  ∃ requests, List.Forall₂ (FieldRequest timePosition coverage subsets) coverage.fields requests ∧ ce = joined requests

theorem forall₂_iff_map {α β : Type} {R : α → β → Prop} {f : α → β} {xs : List α} {ys : List β}
    (h : ∀ x ∈ xs, ∀ y, R x y ↔ y = f x) : List.Forall₂ R xs ys ↔ ys = xs.map f := by
  induction xs generalizing ys with
  | nil => rw [List.forall₂_nil_left_iff, List.map_nil]
  | cons x xs ih =>
    obtain ⟨hFirst, hRest⟩ := List.forall_mem_cons.mp h
    rw [List.forall₂_cons_left_iff, List.map_cons]
    constructor
    · rintro ⟨y, ys', hy, hys, rfl⟩
      rw [(hFirst y).mp hy, (ih hRest).mp hys]
    · rintro rfl
      exact ⟨f x, xs.map f, (hFirst _).mpr rfl, (ih hRest).mpr rfl, rfl⟩

theorem printed_iff (h : Printable timePosition s) (text : Word) :
    s.constraint timePosition = .ok text ↔ text = printed timePosition s := by
  rw [h.eq, Except.ok.injEq, eq_comm]

theorem indexClause_iff (h : (subsets.map (·.dimensionId)).Nodup) (hPrint : ∀ s ∈ subsets, Printable timePosition s)
    (hFresh : dc.arraySubset = none) (clause : Word) :
    IndexClause timePosition subsets dc clause ↔ clause = arrayClause (parked timePosition subsets dc) := by
  cases hSubset : indexSubset subsets dc with
  | none =>
    have hNone (s : RequestedSubset) (hs : s ∈ subsets) (hArray : s.isArrayIndexSubset = true) :
        s.dimensionId ≠ dc.name := by
      have hNot := List.find?_eq_none.mp hSubset s hs
      simpa [hArray] using hNot
    rw [parked, hSubset, arrayClause, hFresh]
    constructor
    · rintro (⟨s, hs, hArray, hName, -⟩ | ⟨-, hClause⟩)
      · exact absurd hName (hNone s hs hArray)
      · exact hClause
    · exact fun hClause => .inr ⟨hNone, hClause⟩
  | some s =>
    have hMem := List.mem_of_find?_eq_some hSubset
    obtain ⟨hArray, hName⟩ : s.isArrayIndexSubset = true ∧ s.dimensionId = dc.name := by
      simpa using List.find?_some hSubset
    rw [parked, hSubset, arrayClause]
    constructor
    · rintro (⟨t, ht, -, hSame, hText⟩ | ⟨hNone, -⟩)
      · have hEq : t = s := List.inj_on_of_nodup_map h ht hMem (hSame.trans hName.symm)
        exact (printed_iff (hPrint s hMem) clause).mp (hEq ▸ hText)
      · exact absurd hName (hNone s hMem hArray)
    · exact fun hClause => .inl ⟨s, hMem, hArray, hName, (printed_iff (hPrint s hMem) clause).mpr hClause⟩

/-- The two kinds are not mixed. -/
def OneKind (subsets : List RequestedSubset) : Prop := ¬(valueSubsets subsets ≠ [] ∧ anyIndex subsets = true)

section
variable {coverage : CoverageDescription} {field request : Word} {fields : List Word}

/-- What a field's request may look like. -/
theorem fieldRequest_iff (hField : field ∈ coverage.fields) (h : (subsets.map (·.dimensionId)).Nodup)
    (hPrint : ∀ s ∈ subsets, Printable timePosition s) :
    FieldRequest timePosition coverage subsets field request ↔
      ∃ order : List RequestedSubset, order.Perm (valueSubsets subsets) ∧
        Restricts (dapId coverage field) (order.map (printed timePosition))
        (if anyIndex subsets then
          some ((coverage.domainCoordinates.map (parked timePosition subsets)).flatMap arrayClause) else none)
        request := by
  obtain ⟨hName, -, -⟩ := dapId_eq hField
  have hClauses (clauses : List Word) :
      List.Forall₂ (IndexClause timePosition subsets) coverage.domainCoordinates clauses ↔
        clauses = coverage.domainCoordinates.map fun dc => arrayClause (parked timePosition subsets dc) :=
    forall₂_iff_map fun dc hdc clause => indexClause_iff h hPrint (coverage.fresh dc hdc) clause
  have hArgs (order : List RequestedSubset) (hOrder : order.Perm (valueSubsets subsets)) (args : List Word) :
      List.Forall₂ (fun s text => s.constraint timePosition = .ok text) order args ↔
        args = order.map (printed timePosition) :=
    forall₂_iff_map fun s hs text =>
      printed_iff (hPrint s (List.mem_of_mem_filter (hOrder.subset hs))) text
  have hFlat : (coverage.domainCoordinates.map fun dc => arrayClause (parked timePosition subsets dc)).flatten =
      (coverage.domainCoordinates.map (parked timePosition subsets)).flatMap arrayClause := by
    rw [List.flatMap_map, List.flatMap_def]
  constructor
  · rintro ⟨id, order, args, clauses, hId, hOrder, hOrderArgs, hCoordinates, hRestricts⟩
    cases (Option.some.inj (hName.symm.trans hId))
    rw [(hArgs order hOrder args).mp hOrderArgs, (hClauses clauses).mp hCoordinates, hFlat] at hRestricts
    exact ⟨order, hOrder, hRestricts⟩
  · rintro ⟨order, hOrder, hRestricts⟩
    refine ⟨dapId coverage field, order, _, _, hName, hOrder, (hArgs order hOrder _).mpr rfl, (hClauses _).mpr rfl, ?_⟩
    rw [hFlat]
    exact hRestricts

theorem fieldText_requested (hField : field ∈ coverage.fields) (h : (subsets.map (·.dimensionId)).Nodup)
    (hPrint : ∀ s ∈ subsets, Printable timePosition s) (hSubsets : subsets ≠ []) (hKind : OneKind subsets) :
    FieldRequest timePosition coverage subsets field (fieldText timePosition (dapId coverage field) subsets
      (coverage.domainCoordinates.map (parked timePosition subsets))) := by
  refine (fieldRequest_iff hField h hPrint).mpr ⟨valueSubsets subsets, List.Perm.refl _, ?_⟩
  rw [fieldText]
  by_cases hValues : valueSubsets subsets = []
  · have hAny := exists_kind hSubsets hValues
    rw [if_pos hValues, if_pos hAny, if_pos hAny, hValues]
    exact .indexed _
  · have hNone : ¬anyIndex subsets = true := fun hAny => hKind ⟨hValues, hAny⟩
    rw [if_neg hValues, if_neg hNone, if_neg hNone]
    obtain ⟨s, rest, hCons⟩ := List.exists_cons_of_ne_nil hValues
    rw [hCons, List.map_cons]
    exact .grid _ _

theorem arguments_length {order : List RequestedSubset} (h : order.Perm (valueSubsets subsets)) :
    (arguments (order.map (printed timePosition))).length =
      (arguments ((valueSubsets subsets).map (printed timePosition))).length :=
  ((h.map _).flatMap_right _).length_eq

/-- The text of a field with both kinds names the variable once more than a request does. -/
theorem mixed_longer (hField : field ∈ coverage.fields) (h : (subsets.map (·.dimensionId)).Nodup)
    (hPrint : ∀ s ∈ subsets, Printable timePosition s) (hMixed : valueSubsets subsets ≠ [] ∧ anyIndex subsets = true)
    (hRequest : FieldRequest timePosition coverage subsets field request) :
    request.length < (fieldText timePosition (dapId coverage field) subsets
      (coverage.domainCoordinates.map (parked timePosition subsets))).length := by
  obtain ⟨order, hOrder, hRestricts⟩ := (fieldRequest_iff hField h hPrint).mp hRequest
  have hSame := @arguments_length timePosition _ _ hOrder
  have hPos := List.length_pos_iff.mpr (dapId_eq hField).2.1
  rw [if_pos hMixed.2] at hRestricts
  rw [fieldText, if_neg hMixed.1, if_pos hMixed.2]
  generalize order.map (printed timePosition) = args at *
  cases hRestricts with
  | indexed =>
    simp only [gridCall, List.length_append, List.length_cons]
    omega
  | gridOfIndexed text texts =>
    simp only [gridCall, List.length_append, List.length_cons, hSame]
    omega
  | indexedGrid text texts =>
    simp only [gridCall, List.length_append, List.length_cons, hSame]
    omega

theorem mixed_all_longer {requests : List Word} (hFields : ∀ f ∈ fields, f ∈ coverage.fields)
    (h : (subsets.map (·.dimensionId)).Nodup) (hPrint : ∀ s ∈ subsets, Printable timePosition s)
    (hMixed : valueSubsets subsets ≠ [] ∧ anyIndex subsets = true)
    (hRequests : List.Forall₂ (FieldRequest timePosition coverage subsets) fields requests) :
    List.Forall₂ (fun r c : Word => r.length < c.length) requests
      (fields.map fun field => fieldText timePosition (dapId coverage field) subsets
        (coverage.domainCoordinates.map (parked timePosition subsets))) := by
  induction hRequests with
  | nil => exact .nil
  | cons hFirst _ ih =>
    obtain ⟨hField, hRest⟩ := List.forall_mem_cons.mp hFields
    exact .cons (mixed_longer hField h hPrint hMixed hFirst) (ih hRest)

theorem checked_iff (coordinates : List DomainCoordinate) (subsets : List RequestedSubset) :
    ((∀ s ∈ subsets, ∃ dc ∈ coordinates, dc.name = s.dimensionId) ∧ checkDimensions coordinates subsets = .ok ()) ∨
    ((∃ s ∈ subsets, ∀ dc ∈ coordinates, dc.name ≠ s.dimensionId) ∧
      checkDimensions coordinates subsets = .error (.wcs badSubsetting)) := by
  induction subsets with
  | nil => exact .inl ⟨fun s hs => absurd hs List.not_mem_nil, rfl⟩
  | cons s subsets ih =>
    rw [checkDimensions]
    cases hFind : coordinates.find? (·.name = s.dimensionId) with
    | none =>
      refine .inr ⟨⟨s, List.mem_cons_self, fun dc hdc => ?_⟩, rfl⟩
      simpa using List.find?_eq_none.mp hFind dc hdc
    | some dc =>
      have hName : dc.name = s.dimensionId := by simpa using List.find?_some hFind
      rcases ih with ⟨hAll, hChecked⟩ | ⟨⟨t, ht, hNot⟩, hChecked⟩
      · exact .inl ⟨List.forall_mem_cons.mpr ⟨⟨dc, List.mem_of_find?_eq_some hFind, hName⟩, hAll⟩, hChecked⟩
      · exact .inr ⟨⟨t, List.mem_cons_of_mem _ ht, hNot⟩, hChecked⟩

/-- Without subsets the request is the variable. -/
theorem whole_request_iff (hField : field ∈ coverage.fields) :
    FieldRequest timePosition coverage [] field request ↔ request = dapId coverage field := by
  have hDistinct : (([] : List RequestedSubset).map (·.dimensionId)).Nodup := List.nodup_nil
  rw [fieldRequest_iff hField hDistinct fun s hs => absurd hs List.not_mem_nil]
  constructor
  · rintro ⟨order, hOrder, hRestricts⟩
    cases List.Perm.eq_nil hOrder
    cases hRestricts
    rfl
  · rintro rfl
    exact ⟨[], List.Perm.refl _, .whole⟩

/-- What a coverage and a request must be for the expression to be right. -/
def Expressible (timePosition : Word → Word → Except WcsFault Word) (coverage : CoverageDescription)
    (subsets : List RequestedSubset) : Prop :=
  coverage.fields = [] ∨
  (subsets = [] ∧ ∀ f ∈ coverage.fields, coverage.dapGridArrayId f = some f) ∨
  (subsets ≠ [] ∧ (∀ s ∈ subsets, Printable timePosition s) ∧ OneKind subsets)

theorem requested_whole_iff (coverage : CoverageDescription) :
    Requested timePosition coverage [] (joined coverage.fields) ↔
      ∀ f ∈ coverage.fields, coverage.dapGridArrayId f = some f := by
  have hOwn (f : Word) (hf : f ∈ coverage.fields) : coverage.dapGridArrayId f = some f ↔ f = dapId coverage f := by
    rw [(dapId_eq hf).1, Option.some.injEq, eq_comm]
  have hRequests (requests : List Word) :
      List.Forall₂ (FieldRequest timePosition coverage []) coverage.fields requests ↔
        requests = coverage.fields.map (dapId coverage) :=
    forall₂_iff_map fun f hf _ => whole_request_iff hf
  constructor
  · rintro ⟨requests, hEach, hJoined⟩
    rw [(hRequests requests).mp hEach] at hJoined
    have hSame := joined_inj (List.length_map ..).symm (fun f hf => (coverage.named f hf).2)
      (List.forall_mem_map.mpr fun f hf => (dapId_eq hf).2.2) hJoined
    intro f hf
    rw [hOwn f hf]
    exact List.map_inj_left.mp ((List.map_id _).trans hSame) f hf
  · intro hNames
    have hSame : coverage.fields = coverage.fields.map (dapId coverage) :=
      (List.map_id _).symm.trans (List.map_congr_left fun f hf => (hOwn f hf).mp (hNames f hf))
    exact ⟨coverage.fields, (hRequests _).mpr hSame, rfl⟩

theorem getDapCE_named (req : GetCoverageRequest)
    (hNamed : ∀ s ∈ req.dimensionSubsets, ∃ dc ∈ coverage.domainCoordinates, dc.name = s.dimensionId) :
    (∃ ce, getDapCE timePosition coverage req = .ok ce ∧ Requested timePosition coverage req.dimensionSubsets ce) ↔
      Expressible timePosition coverage req.dimensionSubsets := by
  obtain ⟨subsets, hDistinct⟩ := req
  have hChecked : checkDimensions coverage.domainCoordinates subsets = .ok () := by
    rcases checked_iff coverage.domainCoordinates subsets with ⟨-, hChecked⟩ | ⟨⟨s, hs, hNot⟩, -⟩
    · exact hChecked
    · obtain ⟨dc, hdc, hName⟩ := hNamed s hs
      exact absurd hName (hNot dc hdc)
  rw [getDapCE, hChecked, ok_bind]
  by_cases hEmpty : coverage.fields = []
  · rw [hEmpty]
    exact iff_of_true ⟨[], rfl, [], by rw [hEmpty]; exact .nil, rfl⟩ (.inl hEmpty)
  by_cases hSubsets : subsets = []
  · subst hSubsets
    rw [names_appended fun f hf => (coverage.named f hf).1, ok_bind]
    constructor
    · rintro ⟨ce, hCe, hRequested⟩
      cases hCe
      exact .inr (.inl ⟨rfl, (requested_whole_iff coverage).mp hRequested⟩)
    · rintro (hNone | ⟨-, hNames⟩ | ⟨hSome, -⟩)
      · exact absurd hNone hEmpty
      · exact ⟨_, rfl, (requested_whole_iff coverage).mpr hNames⟩
      · exact absurd rfl hSome
  constructor
  · rintro ⟨ce, hCe, requests, hRequests, rfl⟩
    have hPrint : ∀ s ∈ subsets, Printable timePosition s := by
      obtain ⟨f, fields, hFields⟩ := List.exists_cons_of_ne_nil hEmpty
      have hNot : subsets.isEmpty = false := by simpa using hSubsets
      rw [hFields, List.foldlM_cons, appendField, hNot, if_neg Bool.false_ne_true, fieldExpression] at hCe
      cases hRun : subsets.foldlM (processSubset timePosition (coverage.dapGridArrayId f))
          ⟨[], false, coverage.domainCoordinates⟩ with
      | error e =>
        rw [hRun] at hCe
        cases hCe
      | ok c => exact printable_of_processed hRun
    refine .inr (.inr ⟨hSubsets, hPrint, fun hMixed => ?_⟩)
    obtain ⟨last, hLast⟩ := fields_appended (fun f hf => hf) hSubsets hDistinct hPrint
    rw [hLast] at hCe
    have hSome : requests ≠ [] := by
      rintro rfl
      exact hEmpty (List.forall₂_nil_right_iff.mp hRequests)
    have hText : joined (coverage.fields.map fun field => fieldText timePosition (dapId coverage field) subsets
        (coverage.domainCoordinates.map (parked timePosition subsets))) = joined requests := Except.ok.inj hCe
    have hLess := joined_length (mixed_all_longer (fun f hf => hf) hDistinct hPrint hMixed hRequests) hSome
    rw [hText] at hLess
    exact absurd hLess (Nat.lt_irrefl _)
  · rintro (hNone | ⟨hNone, -⟩ | ⟨-, hPrint, hKind⟩)
    · exact absurd hNone hEmpty
    · exact absurd hNone hSubsets
    · obtain ⟨last, hLast⟩ := fields_appended (fun f hf => hf) hSubsets hDistinct hPrint
      rw [hLast]
      refine ⟨_, rfl, _, ?_, rfl⟩
      rw [List.forall₂_map_right_iff, List.forall₂_same]
      exact fun f hf => fieldText_requested hf hDistinct hPrint hSubsets hKind

/-- A subset of no coordinate is refused; otherwise the expression requests every field once. -/
def CoverageAnswered (timePosition : Word → Word → Except WcsFault Word) (coverage : CoverageDescription)
    (req : GetCoverageRequest) : Prop :=
  ((∃ s ∈ req.dimensionSubsets, ∀ dc ∈ coverage.domainCoordinates, dc.name ≠ s.dimensionId) ∧
    ∃ e, getDapCE timePosition coverage req = .error (.wcs e)) ∨
  ((∀ s ∈ req.dimensionSubsets, ∃ dc ∈ coverage.domainCoordinates, dc.name = s.dimensionId) ∧
    ∃ ce, getDapCE timePosition coverage req = .ok ce ∧ Requested timePosition coverage req.dimensionSubsets ce)

theorem coverage_answered_iff (timePosition : Word → Word → Except WcsFault Word) (coverage : CoverageDescription)
    (req : GetCoverageRequest) : CoverageAnswered timePosition coverage req ↔
      (∃ s ∈ req.dimensionSubsets, ∀ dc ∈ coverage.domainCoordinates, dc.name ≠ s.dimensionId) ∨
        Expressible timePosition coverage req.dimensionSubsets := by
  constructor
  · rintro (⟨hUnnamed, -⟩ | ⟨hNamed, hRequested⟩)
    · exact .inl hUnnamed
    · exact .inr ((getDapCE_named req hNamed).mp hRequested)
  · intro hEither
    rcases checked_iff coverage.domainCoordinates req.dimensionSubsets with ⟨hNamed, -⟩ | ⟨hUnnamed, hChecked⟩
    · rcases hEither with ⟨s, hs, hNot⟩ | hExpressible
      · obtain ⟨dc, hdc, hName⟩ := hNamed s hs
        exact absurd hName (hNot dc hdc)
      · exact .inr ⟨hNamed, (getDapCE_named req hNamed).mpr hExpressible⟩
    · refine .inl ⟨hUnnamed, badSubsetting, ?_⟩
      rw [getDapCE, hChecked]
      rfl

/-- A field whose DAP variable has another name than the field. -/
def renamedField : CoverageDescription where
  fields := ["temperature".toList]
  dapGridArrayId := fun _ => some ['T']
  domainCoordinates := [⟨"time".toList, "time".toList, "days".toList, none⟩]
  named := by decide
  identified := fun _ _ => ⟨['T'], rfl, by decide, by decide⟩
  distinct := by decide
  fresh := by decide

/-- Without subsets the variable is requested by the field's name. -/
theorem renamed_field_requested : ¬CoverageAnswered (fun _ position => .ok position) renamedField
    ⟨[], List.nodup_nil⟩ := by
  rintro (⟨⟨s, hs, -⟩, -⟩ | ⟨hNamed, hRequested⟩)
  · cases hs
  · rcases (getDapCE_named ⟨[], List.nodup_nil⟩ hNamed).mp hRequested with hNone | ⟨-, hNames⟩ | ⟨hSome, -⟩
    · cases hNone
    · exact absurd (hNames _ List.mem_cons_self) (by decide)
    · exact hSome rfl

end

/-! ## Subsets that print -/

theorem kvp_printable {unicode : Char → Option Nat} {text : Word}
    (h : DimensionSubset.ofKvp unicode text = .ok s.toDimensionSubset) (hUnits : s.units = none) :
    Printable timePosition s := by
  have hMade := DimensionSubset.kvp_made h
  rw [Printable, RequestedSubset.constraint]
  cases hArray : s.isArrayIndexSubset with
  | true =>
    rw [if_pos rfl]
    rcases hMade with ⟨low, high, hType, hLow, hHigh, -⟩ | ⟨hType, -⟩
    · exact ⟨_, DimensionSubset.printed hType hLow hHigh hArray⟩
    · rw [DimensionSubset.getDapArrayIndexConstraint, hArray, hType]
      exact ⟨_, rfl⟩
  | false =>
    rw [if_neg Bool.false_ne_true, RequestedSubset.getDapGridValueConstraint, hUnits]
    simp only [DimensionSubset.getDapGridValueConstraint, hArray]
    rcases hMade with ⟨low, high, hType, -⟩ | ⟨hType, -⟩
    · rw [hType]
      exact ⟨_, rfl⟩
    · rw [hType]
      exact ⟨_, rfl⟩

/-- A subset that came as an element never prints. -/
theorem element_unprintable {unicode : Char → Option Nat} {e : DimensionSubsetElement}
    (h : DimensionSubset.ofElement unicode e = .ok s.toDimensionSubset) : ¬Printable timePosition s := by
  rw [Printable, RequestedSubset.constraint, RequestedSubset.getDapGridValueConstraint,
    DimensionSubset.getDapArrayIndexConstraint, DimensionSubset.getDapGridValueConstraint,
      DimensionSubset.element_type h]
  rintro ⟨text, hText⟩
  cases hArray : s.isArrayIndexSubset with
  | true =>
    rw [hArray] at hText
    cases hText
  | false =>
    rw [hArray, if_neg Bool.false_ne_true, if_neg Bool.false_ne_true] at hText
    cases hUnits : s.units with
    | none =>
      rw [hUnits] at hText
      cases hText
    | some units =>
      simp only [hUnits, temporalConstraint, hArray, Bool.false_eq_true, if_false,
        DimensionSubset.element_type h] at hText
      cases hText

end Libdap.Olfs
