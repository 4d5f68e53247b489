import Libdap.Core.Outcome
import Libdap.Ddx.DDXParser
import Mathlib.Data.List.Forall2

/-! # Variables that are complete

An array with an element variable and a dimension, a grid with an array. The parser takes the array of a grid for granted
when it copies the grid.
-/

namespace Libdap.Ddx
open Core Constraint Dap2
set_option autoImplicit false

inductive Complete : BaseType → Prop
  | mk {type : DodsType} {name : Word} {attr : Nat} {shape : List Dimension} {vars : List BaseType}
    (array : type = .array → vars ≠ [] ∧ shape ≠ [])
    (grid : type = .grid → ∃ a maps, vars = a :: maps ∧ a.type = .array)
    (parts : ∀ v ∈ vars, Complete v) : Complete (.mk type name attr shape vars)

/-- Of a variable that is not finished. -/
structure Parts (v : BaseType) : Prop where
  complete : ∀ c ∈ v.vars, Complete c
  grid : v.type = .grid → ∀ a maps, v.vars = a :: maps → a.type = .array

theorem Complete.parts {v : BaseType} (h : Complete v) : Parts v := by
  cases h with
  | mk hArray hGrid hParts =>
    refine ⟨hParts, ?_⟩
    rintro hType a maps hVars
    obtain ⟨a', maps', hVars', hFirst⟩ := hGrid hType
    obtain ⟨rfl, -⟩ := List.cons.inj (hVars'.symm.trans hVars)
    exact hFirst

theorem Parts.finished {v : BaseType} (h : Parts v) (hArray : v.type = .array → v.vars ≠ [] ∧ v.shape ≠ [])
    (hGrid : v.type = .grid → v.vars ≠ []) : Complete v := by
  obtain ⟨type, name, attr, shape, vars⟩ := v
  refine .mk hArray ?_ h.complete
  intro hType
  obtain ⟨a, maps, hVars⟩ := List.exists_cons_of_ne_nil (hGrid hType)
  exact ⟨a, maps, hVars, h.grid hType a maps hVars⟩

/-! ## Copies -/

/-- An error that the parser does not make itself, or one that an incomplete variable explains. -/
structure Harmless (fine : Prop) (e : Stop) : Prop where
  stack : e ≠ .emptyStack
  pointer : fine → e ≠ .nullPointer

variable {fine : Prop} {env : Env}

theorem Harmless.fault {f : Fault} : Harmless fine (.fault f) where
  stack h := nomatch h
  pointer _ h := nomatch h

theorem Harmless.mono {fine' : Prop} {e : Stop} (h : Harmless fine e) (hFine : fine' → fine) : Harmless fine' e where
  stack := h.stack
  pointer hf := h.pointer (hFine hf)

theorem onTables_yields {α : Type} (x : Call Heap α) (h : Heap) :
    Yields (onTables x h) (fun _ => True) (Harmless fine) := by
  rw [onTables]
  split
  · exact trivial
  · exact .fault

/-- What a copy has in common with its original. -/
structure SameShape (v w : BaseType) : Prop where
  type : w.type = v.type
  complete : Complete v → Complete w

theorem SameShape.of_mem {vs ws : List BaseType} (h : List.Forall₂ SameShape vs ws) : ∀ w ∈ ws, ∃ v ∈ vs,
    SameShape v w := by
  induction h with
  | nil => exact fun w hw => absurd hw List.not_mem_nil
  | cons hSame _ ih =>
    intro w hw
    rcases List.mem_cons.mp hw with rfl | hw
    · exact ⟨_, List.mem_cons_self .., hSame⟩
    · obtain ⟨v, hv, hSame'⟩ := ih w hw
      exact ⟨v, List.mem_cons_of_mem _ hv, hSame'⟩

mutual

theorem ptrDuplicate_yields : ∀ (v : BaseType) (h : Heap),
    Yields (ptrDuplicate env v h) (fun r => SameShape v r.1) (Harmless (Complete v))
  | .mk type name attr shape vars, h => by
    rw [ptrDuplicate]
    apply (onTables_yields _ _).bind
    intro table _
    apply (onTables_yields _ _).bind
    intro copied _
    apply Yields.ite
    · intro hEmpty
      refine .error ⟨fun h => Stop.noConfusion h, fun hComplete => ?_⟩
      cases hComplete with
      | mk _ hGrid _ =>
        simp only [Bool.and_eq_true, decide_eq_true_eq, List.isEmpty_iff] at hEmpty
        obtain ⟨a, maps, hVars, -⟩ := hGrid hEmpty.1
        rw [hEmpty.2] at hVars
        cases hVars
    · intro _
      have hAll := duplicateAll_yields vars copied.2
      have hAll : Yields (duplicateAll env vars copied.2) (fun r => List.Forall₂ SameShape vars r.1)
          (Harmless (Complete (.mk type name attr shape vars))) :=
        hAll.conseq (fun _ hr => hr) fun _ he => he.mono fun hComplete => hComplete.parts.complete
      apply hAll.bind
      intro parts hSame
      refine .ok ⟨rfl, fun hComplete => ?_⟩
      cases hComplete with
      | mk hArray hGrid hParts =>
        refine .mk ?_ ?_ ?_
        · intro hType
          refine ⟨?_, (hArray hType).2⟩
          rintro hNil
          rw [hNil] at hSame
          exact (hArray hType).1 (List.forall₂_nil_right_iff.mp hSame)
        · intro hType
          obtain ⟨a, maps, rfl, hFirst⟩ := hGrid hType
          obtain ⟨a', maps', hHead, -, hParts'⟩ := List.forall₂_cons_left_iff.mp hSame
          exact ⟨a', maps', hParts', hHead.type.trans hFirst⟩
        · intro w hw
          obtain ⟨v, hv, hSameShape⟩ := SameShape.of_mem hSame w hw
          exact hSameShape.complete (hParts v hv)

theorem duplicateAll_yields : ∀ (vs : List BaseType) (h : Heap),
    Yields (duplicateAll env vs h) (fun r => List.Forall₂ SameShape vs r.1) (Harmless (∀ v ∈ vs, Complete v))
  | [], h => .nil
  | v :: vs, h => by
    rw [duplicateAll]
    have hFirst : Yields (ptrDuplicate env v h) (fun r => SameShape v r.1) (Harmless (∀ w ∈ v :: vs, Complete w)) :=
      (ptrDuplicate_yields v h).conseq (fun _ hr => hr) fun _ he => he.mono fun hAll => hAll v (List.mem_cons_self ..)
    apply hFirst.bind
    intro first hSame
    have hRest : Yields (duplicateAll env vs first.2) (fun r => List.Forall₂ SameShape vs r.1)
        (Harmless (∀ w ∈ v :: vs, Complete w)) :=
      (duplicateAll_yields vs first.2).conseq (fun _ hr => hr) fun _ he => he.mono fun hAll w hw =>
        hAll w (List.mem_cons_of_mem _ hw)
    apply hRest.bind
    intro rest hRest'
    exact .cons hSame hRest'

end

mutual

theorem delete_yields : ∀ (v : BaseType) (h : Heap), Yields (delete env v h) (fun _ => True) (Harmless fine)
  | .mk type name attr shape vars, h => by
    rw [delete]
    apply (deleteAll_yields vars h).bind
    intro h' _
    apply (onTables_yields _ _).bind
    intro _ _
    exact trivial

theorem deleteAll_yields : ∀ (vs : List BaseType) (h : Heap), Yields (deleteAll env vs h) (fun _ => True)
    (Harmless fine)
  | [], h => trivial
  | v :: vs, h => by
    rw [deleteAll]
    apply (delete_yields v h).bind
    intro h' _
    exact deleteAll_yields vs h'

end

/-! ## Adding a variable to another -/

variable {parent v : BaseType}

theorem Parts.template (hTemplate : ∀ c ∈ v.vars, Complete c) (hType : v.type = .array) : Parts v where
  complete := hTemplate
  grid h := absurd (hType.symm.trans h) (by decide)

theorem vectorAddVar_yields (hType : parent.type = .array) (t : Option BaseType) (h : Heap) :
    Yields (vectorAddVar env parent t h) (fun r => r.1.type = parent.type ∧
      ((∀ v, t = some v → Complete v) → Parts r.1))
      (Harmless (∀ v, t = some v → Complete v)) := by
  rw [vectorAddVar]
  apply (deleteAll_yields _ _).bind
  intro h' _
  cases t with
  | none => exact .ok ⟨rfl, fun _ => .template (fun c hc => absurd hc List.not_mem_nil) hType⟩
  | some v =>
    have hCopy : Yields (ptrDuplicate env v h') (fun r => SameShape v r.1)
        (Harmless (∀ w, some v = some w → Complete w)) :=
      (ptrDuplicate_yields v h').conseq (fun _ hr => hr) fun _ he => he.mono fun hAll => hAll v rfl
    apply hCopy.bind
    intro copy hSame
    apply Yields.ite
    · intro _
      refine .ok ⟨rfl, fun hAll => .template ?_ hType⟩
      intro c hc
      obtain rfl := List.mem_singleton.mp hc
      exact hSame.complete (hAll v rfl)
    · intro _
      refine .ok ⟨rfl, fun hAll => .template ?_ hType⟩
      intro c hc
      obtain rfl := List.mem_singleton.mp hc
      have hCopied := hSame.complete (hAll v rfl)
      generalize copy.1 = w at hCopied
      cases hCopied with
      | mk hArray hGrid hParts => exact .mk hArray hGrid hParts

theorem appendDims (dims : List Dimension) (v : BaseType) :
    (dims.foldl (fun a d => appendDim env a d.size d.name) v).type = v.type ∧
    (dims.foldl (fun a d => appendDim env a d.size d.name) v).vars = v.vars := by
  induction dims generalizing v with
  | nil => exact ⟨rfl, rfl⟩
  | cons d dims ih => exact ih (appendDim env v d.size d.name)

theorem Parts.congr {w : BaseType} (h : Parts v) (hType : w.type = v.type) (hVars : w.vars = v.vars) : Parts w where
  complete c hc := h.complete c (hVars ▸ hc)
  grid hGrid a maps hParts := h.grid (hType ▸ hGrid) a maps (hVars ▸ hParts)

theorem Parts.append {c : BaseType} (h : Parts parent) (hc : Complete c)
    (hFirst : parent.type = .grid → parent.vars = [] → c.type = .array) :
    Parts (.mk parent.type parent.name parent.attr parent.shape (parent.vars ++ [c])) where
  complete w hw := by
    rcases List.mem_append.mp hw with hw | hw
    · exact h.complete w hw
    · obtain rfl := List.mem_singleton.mp hw
      exact hc
  grid hType a maps hVars := by
    change parent.vars ++ [c] = a :: maps at hVars
    cases hParent : parent.vars with
    | nil =>
      rw [hParent] at hVars
      obtain ⟨rfl, -⟩ := List.cons.inj hVars
      exact hFirst hType hParent
    | cons b rest =>
      rw [hParent] at hVars
      obtain ⟨rfl, -⟩ := List.cons.inj hVars
      exact h.grid hType b rest hParent

theorem addVar_yields (parent v : BaseType) (h : Heap) :
    Yields (addVar env parent v h) (fun r => r.1.type = parent.type ∧ (Parts parent → Complete v → Parts r.1))
      (Harmless (Complete v)) := by
  -- What a constructor does with the copy.
  have hAppend : (parent.type = .grid → parent.vars = [] → v.type = .array) →
      Yields (do
        let copy ← ptrDuplicate env v h
        .ok ((.mk parent.type parent.name parent.attr parent.shape (parent.vars ++ [copy.1]) : BaseType), copy.2))
        (fun r => r.1.type = parent.type ∧ (Parts parent → Complete v → Parts r.1)) (Harmless (Complete v)) := by
    intro hFirst
    apply (ptrDuplicate_yields v h).bind
    intro copy hSame
    refine .ok ⟨rfl, fun hParts hComplete => hParts.append (hSame.complete hComplete) ?_⟩
    intro hType hNil
    exact hSame.type.trans (hFirst hType hNil)
  rw [addVar]
  split
  · rename_i hType
    apply Yields.ite
    · intro _
      have hTemplate : Yields (vectorAddVar env parent v.vars.head? h)
          (fun r => r.1.type = parent.type ∧ (Complete v → Parts r.1)) (Harmless (Complete v)) := by
        have hAll : Complete v → ∀ w, v.vars.head? = some w → Complete w := by
          intro hComplete w hw
          exact hComplete.parts.complete w (List.mem_of_mem_head? hw)
        exact (vectorAddVar_yields hType _ h).conseq (fun _ hr => ⟨hr.1, fun hComplete => hr.2 (hAll hComplete)⟩)
          fun _ he => he.mono hAll
      apply hTemplate.bind
      intro r hr
      obtain ⟨hSameType, hSameVars⟩ := @appendDims env v.shape r.1
      exact .ok ⟨hSameType.trans hr.1, fun _ hComplete => (hr.2 hComplete).congr hSameType hSameVars⟩
    · intro _
      have hAll : Complete v → ∀ w, some v = some w → Complete w := by
        rintro hComplete w hw
        cases hw
        exact hComplete
      exact (vectorAddVar_yields hType _ h).conseq (fun _ hr => ⟨hr.1, fun _ hComplete => hr.2 (hAll hComplete)⟩)
        fun _ he => he.mono hAll
  · apply Yields.ite
    · intro _
      exact .error .fault
    · rename_i hType
      intro hFirst
      apply hAppend
      intro _ hNil
      by_contra hOther
      exact hFirst (by simp [hNil, hOther])
  · rename_i hType
    exact hAppend fun hGrid => absurd (hType.symm.trans hGrid) (by decide)
  · rename_i hType
    exact hAppend fun hGrid => absurd (hType.symm.trans hGrid) (by decide)
  · exact .error .fault

end Libdap.Ddx
