import Libdap.Constraint.Projection
import Libdap.Dap2.Grid

/-! # A Grid under bracket indices

The array of the Grid takes the indices one dimension after the other, and then each map takes the
index of its dimension. An index that is refused leaves the dimensions before it constrained.
-/

namespace Libdap.Constraint
open Core Dap2
set_option autoImplicit false

/-! ## The array -/

theorem processIndex_error {r : Nat} {index : Index} {a a' : Dap2.Array} {f : Fault}
    (h : processIndex r index a = .error f a') : a' = a := by
  rw [processIndex] at h
  split at h
  · cases h
    rfl
  · split at h
    · cases h
      rfl
    · rename_i d hAt _
      rw [Array.addConstraint, hAt] at h
      dsimp only at h
      split at h
      · cases h
        rfl
      · cases h

/-- The indices before the place `k` stand on the dimensions `ds` of the array, and the rest of it is
as it was. -/
structure StoppedAt (k : Nat) (indices : List Index) (front ds : List Dimension)
    (a a' : Dap2.Array) : Prop where
  shape_eq : a'.shape =
    front ++ (List.zipWith constrainedBy (ds.take k) (indices.take k) ++ ds.drop k)
  sendP_eq : a'.sendP = a.sendP
  refused : ∀ d index, ds[k]? = some d → indices[k]? = some index → ¬ Takes a.sendP d index

theorem processFrom_error {indices : List Index} {front ds : List Dimension} {a a' : Dap2.Array}
    {f : Fault} (hShape : a.shape = front ++ ds) (hLength : ds.length = indices.length)
    (h : processFrom front.length indices a = .error f a') :
    ∃ k, k < indices.length ∧ StoppedAt k indices front ds a a' := by
  induction indices generalizing front ds a with
  | nil => cases h
  | cons index indices ih =>
    cases ds with
    | nil => cases hLength
    | cons d ds =>
      have hAt : a.shape[front.length]? = some d := by
        rw [hShape, List.getElem?_append_right (Nat.le_refl _), Nat.sub_self]
        rfl
      change EStateM.bind (processIndex front.length index) _ a = .error f a' at h
      rw [EStateM.bind] at h
      cases hFirst : processIndex front.length index a with
      | error e a₁ =>
        rw [hFirst] at h
        cases h
        refine ⟨0, Nat.succ_pos _, by rw [processIndex_error hFirst, hShape]; rfl,
          by rw [processIndex_error hFirst], ?_⟩
        intro e index' hd hi hTakes
        cases hd
        cases hi
        have hTaken := processIndex_ok.mpr ⟨d, hAt, hTakes, rfl⟩
        rw [hTaken] at hFirst
        cases hFirst
      | ok u a₁ =>
        rw [hFirst] at h
        obtain ⟨d', hAt', _, rfl⟩ := processIndex_ok.mp hFirst
        rw [hAt] at hAt'
        cases hAt'
        have hSet : (Array.updateLength
            { a with shape := a.shape.set front.length (constrainedBy d index) }).shape =
              (front ++ [constrainedBy d index]) ++ ds := by
          rw [Array.updateLength_shape, hShape, List.set_append_right _ _ (Nat.le_refl _),
            Nat.sub_self, List.append_assoc]
          rfl
        obtain ⟨k, hk, hStopped⟩ := ih hSet (Nat.succ.inj hLength) (by
          rw [List.length_append, List.length_singleton]
          exact h)
        refine ⟨k + 1, Nat.succ_lt_succ hk, ?_, hStopped.sendP_eq, hStopped.refused⟩
        rw [hStopped.shape_eq, List.append_assoc]
        rfl

theorem processArrayIndices_error {indices : List Index} {a a' : Dap2.Array} {f : Fault}
    (h : processArrayIndices indices a = .error f a') :
    a' = a ∨ ∃ k, k < indices.length ∧ StoppedAt k indices [] a.shape a a' := by
  rw [processArrayIndices] at h
  split at h
  · cases h
    exact .inl rfl
  · rename_i hLength
    exact .inr (processFrom_error rfl (not_not.mp hLength) h)

/-! ## The maps -/

theorem Takes.whole {sendP : Bool} {d m : Dimension} {index : Index} (h : Takes sendP d index)
    (hSize : m.size = d.size) : Takes false m.whole index := by
  have hStop : m.whole.stopOf index.stop = d.stopOf index.stop := by
    rw [Dimension.stopOf, Dimension.stopOf, ← hSize]
    rfl
  refine ⟨nofun, ?_, ?_, ?_, h.stride_pos, ?_⟩
  · exact hSize ▸ h.start_lt
  · rw [hStop]
    exact hSize ▸ h.stop_lt
  · exact hSize ▸ h.stride_le
  · rw [hStop]
    exact hSize ▸ h.count_le

theorem constrainMap_of_takes {index : Index} {a : Dap2.Array} {m : Dimension} (hShape : a.shape = [m])
    (hTakes : Takes false m.whole index) :
    ∃ a', constrainMap index a = .ok () a' ∧ a'.shape = [constrainedBy m.whole index] ∧
      a'.sendP = true := by
  let b : Dap2.Array := Array.resetConstraint { a with sendP := true }
  have hReset : b.shape = [m.whole] := by
    rw [Array.resetConstraint_shape, hShape]
    rfl
  have hAdd : Array.addConstraint 0 index.start index.stride index.stop b =
      .ok () (Array.updateLength { b with shape := b.shape.set 0 (constrainedBy m.whole index) }) := by
    refine Array.addConstraint_ok.mpr ⟨m.whole, constrainedBy m.whole index, ?_,
      Dimension.addConstraint_ok.mpr ⟨hTakes.start_lt, hTakes.stop_lt, hTakes.stride_le,
        hTakes.stride_pos, hTakes.count_le, rfl⟩, rfl⟩
    rw [hReset]
    rfl
  refine ⟨_, Call.bind_ok.mpr ⟨(), _, rfl, Call.bind_ok.mpr ⟨(), b, rfl, hAdd⟩⟩, ?_, ?_⟩
  · rw [Array.updateLength_shape, hReset]
    rfl
  · rw [Array.updateLength_sendP]
    exact Array.resetConstraint_sendP _

section
variable {V : Type}

/-- Each map has one dimension, of the size that its index was taken for. -/
def MapsTake (arrays : V → Dap2.Array) (indices : List Index) (vs : List V) : Prop :=
  List.Forall₂ (fun index v => ∃ m, (arrays v).shape = [m] ∧ Takes false m.whole index) indices vs

/-- Each map has one dimension, as large as the array's. -/
def SameSizes (arrays : V → Dap2.Array) (a : V) (ms : List V) : Prop :=
  List.Forall₂ (fun d m => ∃ e, (arrays m).shape = [e] ∧ e.size = d.size) (arrays a).shape ms

/-- Each map is constrained as its dimension of the array is. -/
def SameRanges (arrays : V → Dap2.Array) (a : V) (ms : List V) : Prop :=
  List.Forall₂ (fun d m => ∃ e, (arrays m).shape = [e] ∧ e.start = d.start ∧ e.stop = d.stop ∧
    e.stride = d.stride ∧ e.cSize = d.cSize) (arrays a).shape ms

theorem mapsTake {arrays : V → Dap2.Array} {sendP : Bool} {ds : List Dimension} {indices : List Index}
    {ms : List V}
    (hSizes : List.Forall₂ (fun d m => ∃ e, (arrays m).shape = [e] ∧ e.size = d.size) ds ms)
    (hTakes : List.Forall₂ (Takes sendP) ds indices) : MapsTake arrays indices ms := by
  induction hTakes generalizing ms with
  | nil =>
    cases hSizes
    exact .nil
  | cons hHead _ ih =>
    cases hSizes with
    | cons hFirst hRest =>
      obtain ⟨e, hShape, hSize⟩ := hFirst
      exact .cons ⟨e, hShape, hHead.whole hSize⟩ (ih hRest)

theorem sameRanges {arrays arrays' : V → Dap2.Array} {sendP : Bool} {ds : List Dimension}
    {indices : List Index} {ms : List V}
    (hSizes : List.Forall₂ (fun d m => ∃ e, (arrays m).shape = [e] ∧ e.size = d.size) ds ms)
    (hTakes : List.Forall₂ (Takes sendP) ds indices)
    (hMaps : List.Forall₂ (fun index m => (arrays' m).sendP = true ∧
      ∀ e, (arrays m).shape = [e] → (arrays' m).shape = [constrainedBy e.whole index]) indices ms) :
    List.Forall₂ (fun d m => ∃ e, (arrays' m).shape = [e] ∧ e.start = d.start ∧ e.stop = d.stop ∧
      e.stride = d.stride ∧ e.cSize = d.cSize) (List.zipWith constrainedBy ds indices) ms := by
  induction hTakes generalizing ms with
  | nil =>
    cases hSizes
    exact .nil
  | @cons d index ds indices hHead _ ih =>
    cases hSizes with
    | cons hFirst hRest =>
      cases hMaps with
      | cons hMap hMaps =>
        obtain ⟨e, hShape, hSize⟩ := hFirst
        have hStop : e.whole.stopOf index.stop = d.stopOf index.stop := by
          rw [Dimension.stopOf, Dimension.stopOf, ← hSize]
          rfl
        refine .cons ⟨constrainedBy e.whole index, hMap.2 e hShape, rfl, hStop, rfl, ?_⟩
          (ih hRest hMaps)
        rw [constrainedBy, constrainedBy, Dimension.constrained, Dimension.constrained, hStop]

theorem sendP_of_maps {arrays arrays' : V → Dap2.Array} {indices : List Index} {ms : List V}
    (hMaps : List.Forall₂ (fun index m => (arrays' m).sendP = true ∧
      ∀ e, (arrays m).shape = [e] → (arrays' m).shape = [constrainedBy e.whole index]) indices ms) :
    ∀ m ∈ ms, (arrays' m).sendP = true := by
  induction hMaps with
  | nil => simp
  | cons hHead _ ih =>
    intro m hMem
    rcases List.mem_cons.mp hMem with rfl | hRest
    · exact hHead.1
    · exact ih m hRest

variable [DecidableEq V]

/-- All the maps without `send_p`. -/
def suppressed (ms : List V) (s : State V) : State V :=
  { s with arrays := fun v => if v ∈ ms then { s.arrays v with sendP := false } else s.arrays v }

theorem forMaps_suppressed (ms : List V) (s : State V) :
    forMaps (setSendP false) ms s = .ok () (suppressed ms s) := by
  induction ms generalizing s with
  | nil =>
    simp only [suppressed, List.not_mem_nil, if_false]
    rfl
  | cons m ms ih =>
    refine Call.bind_ok.mpr ⟨(), _, Call.on_ok.mpr ⟨_, rfl, rfl⟩, (ih _).trans ?_⟩
    rw [suppressed, suppressed]
    congr 2
    funext v
    by_cases hSame : v = m
    · subst hSame
      simp
    · simp [hSame]

theorem suppressed_shape (ms : List V) (s : State V) (v : V) :
    ((suppressed ms s).arrays v).shape = (s.arrays v).shape := by
  rw [suppressed]
  dsimp only
  split <;> rfl

theorem suppressed_of_not_mem {ms : List V} {v : V} (s : State V) (h : v ∉ ms) :
    (suppressed ms s).arrays v = s.arrays v := by
  rw [suppressed]
  dsimp only
  rw [if_neg h]

theorem forall₂_of_mem {α β : Type} {R S : α → β → Prop} {xs : List α} {ys : List β}
    (h : List.Forall₂ R xs ys) (hMem : ∀ x y, y ∈ ys → R x y → S x y) : List.Forall₂ S xs ys := by
  induction h with
  | nil => exact .nil
  | cons hHead _ ih =>
    exact .cons (hMem _ _ List.mem_cons_self hHead)
      (ih fun x y hy => hMem x y (List.mem_cons_of_mem _ hy))

theorem constrainMaps_ok {indices : List Index} {vs : List V} (hDistinct : vs.Nodup) {s : State V}
    (hTake : MapsTake s.arrays indices vs) :
    ∃ s', constrainMaps indices vs s = .ok () s' ∧ s'.rows = s.rows ∧
      (∀ v, v ∉ vs → s'.arrays v = s.arrays v) ∧
      List.Forall₂ (fun index v => (s'.arrays v).sendP = true ∧
        ∀ m, (s.arrays v).shape = [m] → (s'.arrays v).shape = [constrainedBy m.whole index])
        indices vs := by
  induction indices generalizing vs s with
  | nil =>
    cases hTake
    exact ⟨s, rfl, rfl, fun _ _ => rfl, .nil⟩
  | cons index indices ih =>
    cases hTake with
    | @cons _ v _ vs hHead hTail =>
      obtain ⟨hNew, hDistinct⟩ := List.nodup_cons.mp hDistinct
      obtain ⟨m, hShape, hTakes⟩ := hHead
      obtain ⟨a', hCall, hShape', hSend⟩ := constrainMap_of_takes hShape hTakes
      have hOther : ∀ w ∈ vs, Function.update s.arrays v a' w = s.arrays w := by
        intro w hMem
        apply Function.update_of_ne
        rintro rfl
        exact hNew hMem
      have hRest : MapsTake (Function.update s.arrays v a') indices vs := by
        refine forall₂_of_mem hTail ?_
        rintro index' w hMem ⟨m', hShape', hTakes'⟩
        exact ⟨m', by rw [hOther w hMem, hShape'], hTakes'⟩
      obtain ⟨s', hCalls, hRows, hFrame, hAll⟩ :=
        ih hDistinct (s := { s with arrays := Function.update s.arrays v a' }) hRest
      have hDone : s'.arrays v = a' := by
        rw [hFrame v hNew]
        exact Function.update_self v a' s.arrays
      refine ⟨s', Call.bind_ok.mpr ⟨(), _, Call.on_ok.mpr ⟨a', hCall, rfl⟩, hCalls⟩, hRows, ?_,
        .cons ⟨by rw [hDone]; exact hSend, ?_⟩ (forall₂_of_mem hAll ?_)⟩
      · intro w hw
        rw [hFrame w fun hMem => hw (List.mem_cons_of_mem v hMem)]
        apply Function.update_of_ne
        rintro rfl
        exact hw List.mem_cons_self
      · intro m' hm'
        rw [hShape] at hm'
        cases hm'
        rw [hDone, hShape']
      · rintro index' w hMem ⟨hSent, hShapes⟩
        refine ⟨hSent, fun m' hm' => hShapes m' ?_⟩
        rw [← hm']
        exact congrArg Array.shape (hOther w hMem)

variable (D : Dataset V)

/-- What the call leaves when an index is refused: all but the array's dimensions before it. -/
structure LeftBehind (a : V) (indices : List Index) (s s' : State V) : Prop where
  others : ∀ v, v ≠ a → s'.arrays v = s.arrays v
  rows : s'.rows = s.rows
  array : s'.arrays a = s.arrays a ∨ ∃ k, k < indices.length ∧
    StoppedAt k indices [] (s.arrays a).shape (s.arrays a) (s'.arrays a)

/-- The maps take what the array took. -/
theorem constrainMaps_after {a : V} {ms : List V} {indices : List Index} (hDistinct : (a :: ms).Nodup)
    {s : State V} (hSizes : SameSizes s.arrays a ms) {a' : Dap2.Array}
    (hArray : processArrayIndices indices (s.arrays a) = .ok () a') :
    ∃ s', constrainMaps indices ms
        (suppressed ms { s with arrays := Function.update s.arrays a a' }) = .ok () s' ∧
      SameRanges s'.arrays a ms ∧ ∀ m ∈ ms, (s'.arrays m).sendP = true := by
  obtain ⟨hNew, hMaps⟩ := List.nodup_cons.mp hDistinct
  obtain ⟨hTakes, hConstrained⟩ := processArrayIndices_ok hArray
  generalize hState : suppressed ms { s with arrays := Function.update s.arrays a a' } = s₁
  have hShape : ∀ m ∈ ms, (s₁.arrays m).shape = (s.arrays m).shape := by
    intro m hMem
    rw [← hState, suppressed_shape]
    dsimp only
    rw [Function.update_of_ne]
    rintro rfl
    exact hNew hMem
  have hSame : List.Forall₂ (fun d m => ∃ e, (s₁.arrays m).shape = [e] ∧ e.size = d.size)
      (s.arrays a).shape ms := by
    refine forall₂_of_mem hSizes ?_
    rintro d m hMem ⟨e, hAt, hSize⟩
    exact ⟨e, (hShape m hMem).trans hAt, hSize⟩
  obtain ⟨s', hCall, hRows, hFrame, hAll⟩ := constrainMaps_ok hMaps (mapsTake hSame hTakes)
  have hArrayShape : (s'.arrays a).shape = List.zipWith constrainedBy (s.arrays a).shape indices := by
    rw [hFrame a hNew, ← hState, suppressed_shape]
    dsimp only
    rw [Function.update_self, hConstrained.shape_eq]
  refine ⟨s', hCall, ?_, sendP_of_maps hAll⟩
  rw [SameRanges, hArrayShape]
  exact sameRanges hSame hTakes hAll

variable (D : Dataset V)

theorem processGridIndices_ok {grid a : V} {ms : List V} {indices : List Index}
    (hDistinct : (a :: ms).Nodup) {s s' : State V} (hSizes : SameSizes s.arrays a ms)
    (h : D.processGridIndices grid a ms indices s = .ok () s') :
    SameRanges s'.arrays a ms ∧ ∀ m ∈ ms, (s'.arrays m).sendP = true := by
  obtain ⟨_, s₀, hGet, h⟩ := Call.bind_ok.mp h
  cases hGet
  split at h
  · exact absurd h Call.throw_not_ok
  · obtain ⟨_, s₁, hArray, h⟩ := Call.bind_ok.mp h
    obtain ⟨a', hProcess, rfl⟩ := Call.on_ok.mp hArray
    obtain ⟨_, s₂, hSuppress, h⟩ := Call.bind_ok.mp h
    rw [forMaps_suppressed] at hSuppress
    cases hSuppress
    obtain ⟨s'', hMaps, hRanges, hSend⟩ := constrainMaps_after hDistinct hSizes hProcess
    rw [hMaps] at h
    cases h
    exact ⟨hRanges, hSend⟩

theorem processGridIndices_error {grid a : V} {ms : List V} {indices : List Index} {f : Fault}
    (hDistinct : (a :: ms).Nodup) {s s' : State V} (hSizes : SameSizes s.arrays a ms)
    (h : D.processGridIndices grid a ms indices s = .error f s') : LeftBehind a indices s s' := by
  rcases Call.bind_error.mp h with hGet | ⟨_, s₀, hGet, h⟩
  · cases hGet
  · cases hGet
    split at h
    · cases h
      exact ⟨fun _ _ => rfl, rfl, .inl rfl⟩
    · rcases Call.bind_error.mp h with hArray | ⟨_, s₁, hArray, h⟩
      · obtain ⟨a', hProcess, rfl⟩ := Call.on_error.mp hArray
        refine ⟨fun v hv => Function.update_of_ne hv a' s.arrays, rfl, ?_⟩
        dsimp only
        rw [Function.update_self]
        exact (processArrayIndices_error hProcess).imp_right id
      · obtain ⟨a', hProcess, rfl⟩ := Call.on_ok.mp hArray
        obtain ⟨s'', hMaps, _⟩ := constrainMaps_after hDistinct hSizes hProcess
        rcases Call.bind_error.mp h with hSuppress | ⟨_, s₂, hSuppress, h⟩
        · rw [forMaps_suppressed] at hSuppress
          cases hSuppress
        · rw [forMaps_suppressed] at hSuppress
          cases hSuppress
          rw [hMaps] at h
          cases h

end

end Libdap.Constraint
