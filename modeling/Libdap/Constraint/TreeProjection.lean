import Libdap.Constraint.GridProjection
import Libdap.Dap2.Search
import Mathlib.Data.List.Nodup

/-! # Bracket indices on a Grid of the dataset -/

namespace Libdap.Constraint
open Core Dap2
set_option autoImplicit false

mutual

def addresses : Variable → Addr → List Addr
  | .simple _, here => [here]
  | .array _ element, here => here :: addresses element (here ++ [0])
  | .fields _ _ vars, here => here :: addressesFrom vars here 0
  | .grid _ arrayVar mapVars, here =>
    here :: (addresses arrayVar (here ++ [0]) ++ addressesFrom mapVars here 1)

def addressesFrom : List Variable → Addr → Nat → List Addr
  | [], _, _ => []
  | v :: vs, here, i => addresses v (here ++ [i]) ++ addressesFrom vs here (i + 1)

end

mutual

theorem mem_addresses (v : Variable) (here b : Addr) : b ∈ addresses v here ↔ Within v here b := by
  cases v with
  | simple n =>
    rw [addresses, List.mem_singleton, within_iff, Variable.parts, or_iff_left withinAny_nil]
  | array n element =>
    rw [addresses, List.mem_cons, within_iff, Variable.parts, withinAny_cons,
      mem_addresses element, or_iff_right withinAny_nil]
  | fields kind n vars =>
    rw [addresses, List.mem_cons, within_iff, Variable.parts, mem_addressesFrom vars]
  | grid n arrayVar mapVars =>
    rw [addresses, List.mem_cons, List.mem_append, within_iff, Variable.parts, withinAny_cons,
      mem_addresses arrayVar, mem_addressesFrom mapVars, or_comm (a := Within _ _ _)]

theorem mem_addressesFrom (vars : List Variable) (here : Addr) (i : Nat) (b : Addr) :
    b ∈ addressesFrom vars here i ↔ WithinAny vars here i b := by
  cases vars with
  | nil => simp [addressesFrom, withinAny_nil]
  | cons v vs =>
    rw [addressesFrom, List.mem_append, withinAny_cons, mem_addresses v, mem_addressesFrom vs,
      or_comm]

end

theorem withinAny_of_locate {vars : List Variable} {b : Addr} {v : Variable}
    (h : locate vars b = some v) : WithinAny vars [] 0 b := by
  cases b with
  | nil => cases h
  | cons i b =>
    rw [locate] at h
    cases hAt : vars[i]? with
    | none => simp [hAt] at h
    | some w =>
      rw [hAt] at h
      exact ⟨i, w, hAt, b, v, by simp, h⟩

def isArray : Option Variable → Bool
  | some (.array _ _) => true
  | _ => false

/-- The kind of a variable, as its `type ()` says. -/
def kindAt (a : Addr) : Option Variable → Kind Addr
  | some (.array _ _) => .array
  | some (.grid _ _ mapVars) => .grid (arrayAddr a) (mapAddrs a mapVars)
  | some (.fields .sequenceType _ _) => .sequence
  | _ => .other

/-- The dataset as the projection clauses see it. -/
def dataset (unset : Word) (d : DDS) : Dataset Addr where
  var n := (d.var unset n []).1.map Prod.fst
  kind a := kindAt a (locate d.vars a)
  nameOf a := (locate d.vars a).elim "" fun v => String.ofList v.name
  marked n := (addressesFrom d.vars [] 0).filter fun b =>
    isArray (locate d.vars b) && (d.mark unset n true fun _ => false).2 b

theorem mem_marked {unset : Word} {d : DDS} {n : Word} {a b : Addr} {v : Variable}
    (hVar : (d.var unset n []).1 = some (a, v)) (hWithin : Within v a b)
    (hArray : isArray (locate d.vars b) = true) : b ∈ (dataset unset d).marked n := by
  have hLocated : ∃ u, locate d.vars b = some u := by
    cases hAt : locate d.vars b with
    | none =>
      rw [hAt] at hArray
      cases hArray
    | some u => exact ⟨u, rfl⟩
  obtain ⟨u, hu⟩ := hLocated
  refine List.mem_filter.mpr ⟨(mem_addressesFrom d.vars [] 0 b).mpr (withinAny_of_locate hu), ?_⟩
  rw [hArray, Bool.true_and, DDS.mark]
  cases hFound : d.var unset n [] with
  | mk found s =>
    rw [hFound] at hVar
    dsimp only at hVar
    rw [hVar]
    exact ((((setSendP_sets true v a fun _ => false).trans
      (foldl_setFlag_sets true s _)) b).1 (.inr hWithin))

/-! ## The parts of a Grid -/

theorem mapAddrs_nodup (g : Addr) (mapVars : List Variable) :
    (arrayAddr g :: mapAddrs g mapVars).Nodup := by
  rw [List.nodup_cons]
  constructor
  · rw [mapAddrs, List.mem_map]
    rintro ⟨i, _, hEq⟩
    simp [arrayAddr] at hEq
  · refine List.Nodup.map ?_ List.nodup_range
    intro i j hEq
    simpa using hEq

theorem sameSizes {arrays : Arrays} {g : Addr} {arrayVar : Variable} {mapVars : List Variable}
    (h : WellFormed arrays g arrayVar mapVars) :
    SameSizes arrays (arrayAddr g) (mapAddrs g mapVars) := by
  rw [SameSizes, List.forall₂_iff_get]
  refine ⟨by rw [mapAddrs, List.length_map, List.length_range, h.rank], ?_⟩
  intro i hi hi'
  rw [← h.rank] at hi
  obtain ⟨m, hShape, hSize⟩ := h.sizes i hi
  refine ⟨m, by simpa [mapAddrs] using hShape, ?_⟩
  rw [hSize, sizeAt, List.getElem?_eq_getElem (by rw [← h.rank]; exact hi)]
  rfl

theorem part_located {vars : List Variable} {g : Addr} {name : Word} {arrayVar : Variable}
    {mapVars : List Variable} {arrays : Arrays} (h : WellFormed arrays g arrayVar mapVars)
    (hGrid : locate vars g = some (.grid name arrayVar mapVars)) {b : Addr}
    (hPart : b ∈ arrayAddr g :: mapAddrs g mapVars) :
    Within (.grid name arrayVar mapVars) g b ∧ isArray (locate vars b) = true := by
  obtain ⟨i, hi, hb⟩ : ∃ i, i < (arrayVar :: mapVars).length ∧ b = g ++ [i] := by
    rcases List.mem_cons.mp hPart with hArray | hMap
    · exact ⟨0, Nat.succ_pos _, hArray⟩
    · obtain ⟨i, hi, hb⟩ := List.mem_map.mp hMap
      exact ⟨i + 1, Nat.succ_lt_succ (List.mem_range.mp hi), hb.symm⟩
  have hAt := List.getElem?_eq_getElem hi
  have hSub : Variable.sub (.grid name arrayVar mapVars) [i] = some ((arrayVar :: mapVars)[i]) := by
    rw [Variable.sub, Variable.parts, hAt]
    rfl
  refine ⟨⟨[i], _, hb, hSub⟩, ?_⟩
  rw [hb, locate_append hGrid, hSub]
  rcases List.mem_cons.mp (List.getElem_mem hi) with hArray | hMap
  · obtain ⟨element, hElement⟩ := h.isArray
    rw [hArray, hElement]
    rfl
  · obtain ⟨element, hElement⟩ := h.mapsAreArrays _ hMap
    rw [hElement]
    rfl

/-! ## The projection -/

theorem components_of_sendP {V : Type} {arrays : V → Dap2.Array} {a : V} {ms : List V}
    (h : ∀ v ∈ a :: ms, (arrays v).sendP = true) : components arrays a ms true = 1 + ms.length := by
  have hAll : ms.countP (fun v => (arrays v).sendP) = ms.length :=
    List.countP_eq_length.mpr fun v hv => h v (List.mem_cons_of_mem a hv)
  rw [components, if_pos rfl, if_pos (h a List.mem_cons_self), hAll]

theorem mapsMatch_of_ranges {V : Type} {arrays : V → Dap2.Array} {ds : List Dimension} {ms : List V}
    (hRanges : List.Forall₂ (fun d m => ∃ e, (arrays m).shape = [e] ∧ e.start = d.start ∧
      e.stop = d.stop ∧ e.stride = d.stride ∧ e.cSize = d.cSize) ds ms)
    (hSend : ∀ m ∈ ms, (arrays m).sendP = true) (hCounts : ∀ d ∈ ds, d.cSize ≠ 0) :
    mapsMatch arrays ds ms = true := by
  induction hRanges with
  | nil => rfl
  | @cons d m ds ms hHead _ ih =>
    obtain ⟨e, hShape, hStart, hStop, hStride, _⟩ := hHead
    have hRest := ih (fun v hv => hSend v (List.mem_cons_of_mem m hv))
      (fun f hf => hCounts f (List.mem_cons_of_mem d hf))
    rw [mapsMatch, if_pos ⟨hCounts d List.mem_cons_self, hSend m List.mem_cons_self⟩, hRest,
      sameRange, hShape]
    simp [hStart, hStop, hStride]

/-- What the Grid is under a projection that was taken. -/
structure Projected (arrays : Arrays) (g : Addr) (mapVars : List Variable) : Prop where
  ranges : SameRanges arrays (arrayAddr g) (mapAddrs g mapVars)
  sent : ∀ v ∈ arrayAddr g :: mapAddrs g mapVars, (arrays v).sendP = true
  count : components arrays (arrayAddr g) (mapAddrs g mapVars) true = 1 + mapVars.length
  isGrid : mapVars ≠ [] → (∀ d ∈ (arrays (arrayAddr g)).shape, d.cSize ≠ 0) →
    projectionYieldsGrid arrays (arrayAddr g) (mapAddrs g mapVars) = true

theorem projected_of_ranges {arrays : Arrays} {g : Addr} {mapVars : List Variable}
    (hRanges : SameRanges arrays (arrayAddr g) (mapAddrs g mapVars))
    (hSent : ∀ v ∈ arrayAddr g :: mapAddrs g mapVars, (arrays v).sendP = true) :
    Projected arrays g mapVars := by
  have hLength : (mapAddrs g mapVars).length = mapVars.length := by
    rw [mapAddrs, List.length_map, List.length_range]
  have hCount : components arrays (arrayAddr g) (mapAddrs g mapVars) true = 1 + mapVars.length := by
    rw [components_of_sendP hSent, hLength]
  refine ⟨hRanges, hSent, hCount, ?_⟩
  intro hMaps hCounts
  have hPos := List.length_pos_iff.mpr hMaps
  rw [projectionYieldsGrid, hSent _ List.mem_cons_self, hCount, if_neg (by decide),
    if_neg (by omega)]
  exact mapsMatch_of_ranges hRanges (fun m hm => hSent m (List.mem_cons_of_mem _ hm)) hCounts

theorem SameRanges.congr {V : Type} {arrays arrays' : V → Dap2.Array} {a : V} {ms : List V}
    (h : SameRanges arrays a ms) (hShape : ∀ v, (arrays' v).shape = (arrays v).shape) :
    SameRanges arrays' a ms := by
  rw [SameRanges] at h ⊢
  simp only [hShape]
  exact h

/-- What `mark` makes of the arrays. -/
theorem mark_ok {V : Type} [DecidableEq V] {D : Dataset V} {n : Word} {v : V} (h : D.var n = some v)
    (s : State V) :
    ∃ s', D.mark n s = .ok true s' ∧ (∀ w, (s'.arrays w).shape = (s.arrays w).shape) ∧
      ∀ w, w ∈ D.marked n → (s'.arrays w).sendP = true := by
  refine ⟨_, by rw [Dataset.mark, h], ?_, ?_⟩
  · intro w
    dsimp only
    split <;> rfl
  · intro w hMem
    dsimp only
    rw [if_pos hMem]

theorem grid_projection {unset : Word} {d : DDS} (hContainer : d.ContainerInside) {n : Word} {g : Addr}
    {name : Word} {arrayVar : Variable} {mapVars : List Variable}
    (hVar : (d.var unset n []).1 = some (g, .grid name arrayVar mapVars)) {s : State Addr} {all : Bool}
    (hSemantics : gridCheckSemantics s.arrays g name arrayVar mapVars all = .ok ())
    (indices : List Index) :
    (∀ found s', (dataset unset d).bracketProjection n indices s = .ok found s' →
      found = true ∧ Projected s'.arrays g mapVars) ∧
      ∀ f s', (dataset unset d).bracketProjection n indices s = .error f s' →
        LeftBehind (arrayAddr g) indices s s' := by
  have hWell := gridCheckSemantics_ok hSemantics
  have hGrid := DDS.var_located unset hContainer hVar
  have hName : (dataset unset d).var n = some g := by
    change (d.var unset n []).1.map Prod.fst = some g
    rw [hVar]
    rfl
  have hKind : (dataset unset d).kind g = .grid (arrayAddr g) (mapAddrs g mapVars) := by
    change kindAt g (locate d.vars g) = _
    rw [hGrid]
    rfl
  have hDistinct := mapAddrs_nodup g mapVars
  have hSizes := sameSizes hWell
  constructor
  · intro found s' h
    rw [Dataset.bracketProjection, hName] at h
    dsimp only at h
    rw [hKind] at h
    obtain ⟨_, s₁, hIndices, h⟩ := Call.bind_ok.mp h
    obtain ⟨hRanges, hMaps⟩ := processGridIndices_ok _ hDistinct hSizes hIndices
    obtain ⟨_, s₂, hMark, h⟩ := Call.bind_ok.mp h
    obtain ⟨_, rfl⟩ := Call.pure_ok.mp h
    obtain ⟨s₃, hMarked, hShape, hSent⟩ := mark_ok hName s₁
    rw [hMarked] at hMark
    cases hMark
    refine ⟨(Call.pure_ok.mp h).1, projected_of_ranges (hRanges.congr hShape) ?_⟩
    intro v hMem
    obtain ⟨hWithin, hArray⟩ := part_located hWell hGrid hMem
    exact hSent v (mem_marked hVar hWithin hArray)
  · intro f s' h
    rw [Dataset.bracketProjection, hName] at h
    dsimp only at h
    rw [hKind] at h
    rcases Call.bind_error.mp h with hIndices | ⟨_, s₁, _, h⟩
    · exact processGridIndices_error _ hDistinct hSizes hIndices
    · obtain ⟨s₂, hMarked, _⟩ := mark_ok hName s₁
      rcases Call.bind_error.mp h with hMark | ⟨_, s₃, _, h⟩
      · rw [hMarked] at hMark
        cases hMark
      · cases h

/-- A Grid `g` over `lat` and `lon`. -/
def gridParts : List Variable :=
  [.array "lat".toList (.simple "lat".toList), .array "lon".toList (.simple "lon".toList)]

def gridArray : Variable := .array "sst".toList (.simple "sst".toList)

def gridDataset : DDS := ⟨[.grid "g".toList gridArray gridParts], none⟩

def wholeDimension (n : Int) : Dimension := ⟨n, "", 0, n - 1, 1, n⟩

def gridState : State Addr where
  arrays a :=
    if a = [0, 0] then ⟨"sst", [wholeDimension 10, wholeDimension 20], 200, false⟩
    else if a = [0, 1] then ⟨"lat", [wholeDimension 10], 10, false⟩
    else ⟨"lon", [wholeDimension 20], 20, false⟩
  rows _ := ⟨-1, 1, -1⟩

theorem gridDataset_inside : gridDataset.ContainerInside := fun _ h => nomatch h

theorem grid_constrained :
    ∃ s', (dataset [] gridDataset).bracketProjection "g".toList [⟨2, 1, 5⟩, ⟨0, 2, 19⟩] gridState =
      .ok true s' ∧ Projected s'.arrays [0] gridParts := by
  have hSemantics :
      gridCheckSemantics gridState.arrays [0] "g".toList gridArray gridParts true = .ok () := rfl
  have hVar : (gridDataset.var [] "g".toList []).1 =
      some ([0], .grid "g".toList gridArray gridParts) := rfl
  have hBoth := grid_projection gridDataset_inside hVar hSemantics
    [⟨2, 1, 5⟩, ⟨0, 2, 19⟩]
  exact ⟨_, rfl, (hBoth.1 _ _ rfl).2⟩

/-- The second index is refused when the first dimension of the array has taken its own. -/
theorem refused_index_leaves_first :
    ¬ ∀ (unset : Word) (d : DDS) (n : Word) (g : Addr) (name : Word) (arrayVar : Variable)
      (mapVars : List Variable) (s s' : State Addr) (indices : List Index) (f : Fault),
      d.ContainerInside → (d.var unset n []).1 = some (g, .grid name arrayVar mapVars) →
      gridCheckSemantics s.arrays g name arrayVar mapVars true = .ok () →
      (dataset unset d).bracketProjection n indices s = .error f s' →
        ∀ v ∈ arrayAddr g :: mapAddrs g mapVars, (s'.arrays v).shape = (s.arrays v).shape ∧
          (s'.arrays v).sendP = (s.arrays v).sendP := by
  intro h
  have hSame := (h [] gridDataset "g".toList [0] "g".toList gridArray gridParts gridState _
    [⟨2, 1, 5⟩, ⟨30, 1, 40⟩] _ gridDataset_inside rfl rfl rfl [0, 0] List.mem_cons_self).1
  revert hSame
  decide

end Libdap.Constraint
