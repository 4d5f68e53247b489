import Libdap.Dap2.GridParts
import Mathlib.Data.List.Perm.Basic

/-! # The child list of a Grid over a run -/

namespace Libdap.Dap2
open Core
set_option autoImplicit false

/-- The child list is the array and then the maps, each once; each of them is there and has the Grid
for its parent. -/
structure Consistent (w : World) (g : Nat) (o : GridParts) : Prop where
  lists : o.vars = o.arrayVar.toList ++ o.mapVars
  nodup : o.vars.Nodup
  live : ∀ r ∈ o.vars, ∃ c, w.vars.cell r = some c ∧ c.parent = some g

/-- Every Grid but `x` is consistent. -/
def GoodBut (x : Option Nat) (w : World) : Prop :=
  ∀ g o, w.grids.cell g = some o → some g ≠ x → Consistent w g o

def Good (w : World) : Prop := GoodBut none w

/-- The variable is on the heap and belongs to no Grid. -/
structure Loose (w : World) (r : Nat) : Prop where
  live : ∃ c, w.vars.cell r = some c
  alone : ∀ g o, w.grids.cell g = some o → r ∉ o.vars

theorem Good.but {w : World} (h : Good w) (x : Option Nat) : GoodBut x w :=
  fun g o hGrid _ => h g o hGrid (by simp)

theorem Consistent.congr {w w' : World} {g : Nat} {o : GridParts} (h : Consistent w g o)
    (hCells : ∀ r ∈ o.vars, w'.vars.cell r = w.vars.cell r) : Consistent w' g o :=
  ⟨h.lists, h.nodup, fun r hr => by
    rw [hCells r hr]
    exact h.live r hr⟩

/-! ## A new variable -/

def World.withVar (w : World) (c : Cell) : World := { w with vars := w.vars.alloc c }

theorem GoodBut.withVar {x : Option Nat} {w : World} (h : GoodBut x w) (c : Cell) :
    GoodBut x (w.withVar c) := by
  intro g o hGrid hx
  have hOld := h g o hGrid hx
  apply hOld.congr
  intro r hr
  obtain ⟨d, hCell, _⟩ := hOld.live r hr
  exact Store.alloc_of_ne c (Store.ne_next hCell)

theorem Good.loose_next {w : World} (h : Good w) (c : Cell) : Loose (w.withVar c) w.vars.next := by
  refine ⟨⟨c, Store.alloc_self c⟩, ?_⟩
  intro g o hGrid hMem
  obtain ⟨d, hCell, _⟩ := (h g o hGrid (by simp)).live _ hMem
  exact Store.ne_next hCell rfl

/-! ## A variable that a Grid takes -/

/-- The Grid gets these lists, and the variable the Grid for its parent. -/
def World.attach (w : World) (g r : Nat) (f : GridParts → GridParts) : World where
  vars := w.vars.modify r fun c => { c with parent := some g }
  grids := w.grids.modify g f

theorem Good.attach {w : World} (h : Good w) {g r : Nat} {o : GridParts}
    (hGrid : w.grids.cell g = some o) (hLoose : Loose w r) {f : GridParts → GridParts}
    (hLists : (f o).vars = (f o).arrayVar.toList ++ (f o).mapVars)
    (hPerm : (f o).vars.Perm (r :: o.vars)) : Good (w.attach g r f) := by
  obtain ⟨c, hCell⟩ := hLoose.live
  have hOld := h g o hGrid (by simp)
  have hOther : ∀ q, q ≠ r → (w.attach g r f).vars.cell q = w.vars.cell q :=
    fun q hq => Store.modify_of_ne _ hq
  intro g' o' hGrid' _
  rcases Store.modify_cases hGrid' with ⟨rfl, o₀, hGrid₀, rfl⟩ | ⟨hNe, hGrid₀⟩
  · rw [hGrid] at hGrid₀
    cases hGrid₀
    refine ⟨hLists, hPerm.nodup_iff.mpr (List.nodup_cons.mpr ⟨hLoose.alone g' o hGrid, hOld.nodup⟩), ?_⟩
    intro q hq
    rcases List.mem_cons.mp (hPerm.mem_iff.mp hq) with rfl | hOldChild
    · exact ⟨_, Store.modify_self _ hCell, rfl⟩
    · rw [hOther q]
      · exact hOld.live q hOldChild
      · rintro rfl
        exact hLoose.alone g' o hGrid hOldChild
  · apply (h g' o' hGrid₀ (by simp)).congr
    intro q hq
    apply hOther
    rintro rfl
    exact hLoose.alone g' o' hGrid₀ hq

/-- A variable that no Grid has may get any parent. -/
theorem Good.withParent {w : World} (h : Good w) {r : Nat} (g : Nat) (hLoose : Loose w r) :
    Good { w with vars := w.vars.modify r fun c => { c with parent := some g } } ∧
      Loose { w with vars := w.vars.modify r fun c => { c with parent := some g } } r := by
  obtain ⟨c, hCell⟩ := hLoose.live
  constructor
  · intro g' o hGrid _
    apply (h g' o hGrid (by simp)).congr
    intro q hq
    apply Store.modify_of_ne
    rintro rfl
    exact hLoose.alone g' o hGrid hq
  · exact ⟨⟨_, Store.modify_self _ hCell⟩, hLoose.alone⟩

/-- The variable becomes the last map. -/
theorem Good.attachMap {w : World} (h : Good w) {g r : Nat} {o : GridParts}
    (hGrid : w.grids.cell g = some o) (hLoose : Loose w r) :
    Good (w.attach g r fun o => { o with mapVars := o.mapVars ++ [r], vars := o.vars ++ [r] }) := by
  refine h.attach hGrid hLoose ?_ ?_
  · dsimp only
    rw [(h g o hGrid (by simp)).lists, List.append_assoc]
  · exact List.perm_append_singleton r o.vars

/-- The variable becomes the array of a Grid without children. -/
theorem Good.attachArray {w : World} (h : Good w) {g r : Nat} {o : GridParts}
    (hGrid : w.grids.cell g = some o) (hArray : o.arrayVar = none) (hMaps : o.mapVars = [])
    (hLoose : Loose w r) :
    Good (w.attach g r fun o => { o with arrayVar := some r, vars := o.vars ++ [r] }) := by
  have hNone : o.vars = [] := by
    rw [(h g o hGrid (by simp)).lists, hArray, hMaps]
    rfl
  refine h.attach hGrid hLoose ?_ ?_
  · dsimp only
    rw [hNone, hMaps]
    rfl
  · exact List.perm_append_singleton r o.vars

/-- The variable becomes the first map of a Grid that has no array. -/
theorem Good.attachFirst {w : World} (h : Good w) {g r : Nat} {o : GridParts}
    (hGrid : w.grids.cell g = some o) (hArray : o.arrayVar = none) (hLoose : Loose w r) :
    Good (w.attach g r fun o => { o with mapVars := r :: o.mapVars, vars := r :: o.vars }) := by
  refine h.attach hGrid hLoose ?_ (List.Perm.refl _)
  dsimp only
  rw [(h g o hGrid (by simp)).lists, hArray]
  rfl

/-! ## The calls -/

section
variable {w : World} {r g : Nat}

theorem readVar_ok {c : Cell} (h : w.vars.cell r = some c) : readVar r w = .ok c w := by
  rw [readVar, h]

theorem readGrid_ok {o : GridParts} (h : w.grids.cell g = some o) : readGrid g w = .ok o w := by
  rw [readGrid, h]

theorem setParent_ok {c : Cell} (h : w.vars.cell r = some c) :
    setParent r g w =
      .ok () { w with vars := w.vars.modify r fun c => { c with parent := some g } } :=
  Call.bind_ok.mpr ⟨c, w, readVar_ok h, rfl⟩

theorem ptrDuplicate_ok {c : Cell} (h : w.vars.cell r = some c) :
    ptrDuplicate r w = .ok w.vars.next (w.withVar c) :=
  Call.bind_ok.mpr ⟨c, w, readVar_ok h, rfl⟩

/-- `set_parent`, and then a change of the lists of the Grid. -/
theorem attach_ok {c : Cell} (h : w.vars.cell r = some c) (f : GridParts → GridParts) :
    (do setParent r g; modifyGrid g f : Call World Unit) w = .ok () (w.attach g r f) :=
  Call.bind_ok.mpr ⟨(), _, setParent_ok h, rfl⟩

/-- A variable that becomes the array and then is put at the end of the child list. -/
theorem takeArray_ok {o : GridParts} {c : Cell} (hGrid : w.grids.cell g = some o)
    (hArray : o.arrayVar = none) (h : w.vars.cell r = some c) :
    (do setArray g (some r); pushVar g r : Call World Unit) w =
      .ok () (w.attach g r fun o => { o with arrayVar := some r, vars := o.vars ++ [r] }) := by
  have hSet : setArray g (some r) w = .ok ()
      { vars := w.vars.modify r fun c => { c with parent := some g }
        grids := w.grids.modify g fun o => { o with arrayVar := some r } } := by
    refine Call.bind_ok.mpr ⟨o, w, readGrid_ok hGrid, ?_⟩
    rw [hArray, if_neg (by simp)]
    refine Call.bind_ok.mpr ⟨(), w, rfl, Call.bind_ok.mpr ⟨(), _, rfl, ?_⟩⟩
    exact setParent_ok (w := { w with grids := _ }) h
  refine Call.bind_ok.mpr ⟨(), _, hSet, ?_⟩
  rw [pushVar, modifyGrid, World.attach]
  dsimp only
  rw [Store.modify_modify]
  rfl

theorem Op.after_of_ok (op : Op) {w' : World} (h : op.call w = .ok () w') : op.after w = some w' := by
  rw [Op.after, h]

theorem Op.after_of_throw {op : Op} {msg : String} {w' : World}
    (h : op.call w = .error (.InternalErr msg) w') : op.after w = some w' := by
  rw [Op.after, h]

end

/-! ## The steps -/

theorem arrayVar_of_takesArray {o : GridParts} {part : PartName}
    (hSet : ¬ (part = .array ∧ o.arrayVar.isSome)) (h : takesArray o part = true) :
    o.arrayVar = none ∧ part ≠ .maps := by
  cases part with
  | nil => exact ⟨by simpa [takesArray] using h, by decide⟩
  | array => exact ⟨by simpa using hSet, by decide⟩
  | maps => simp [takesArray] at h

/-- What a step may be so that the Grids stay consistent: the array is added before the first map and
only once, `set_array` changes nothing, maps are prepended before there is an array, a Grid that is
copied has an array, one that is assigned to has no maps, and a variable that is handed over belongs
to no Grid. -/
def Op.Meets (w : World) : Op → Prop
  | newVar _ => True
  | newGrid => True
  | addVar g bt part => ∃ o, w.grids.cell g = some o ∧ ∀ r, bt = some r →
    ∃ c, w.vars.cell r = some c ∧
      (c.isArray = true → o.arrayVar = none → part ≠ .maps → o.mapVars = [])
  | addVarNocopy g bt part => ∃ o, w.grids.cell g = some o ∧ ∀ r, bt = some r →
    Loose w r ∧ ∃ c, w.vars.cell r = some c ∧
      (c.isArray = true → o.arrayVar = none → part ≠ .maps → o.mapVars = [])
  | setArray g newArr => ∃ o, w.grids.cell g = some o ∧ (newArr = none ∨ newArr = o.arrayVar)
  | addMap g newMap addAsCopy => ∃ o, w.grids.cell g = some o ∧ ∀ r, newMap = some r →
    (∃ c, w.vars.cell r = some c) ∧ (addAsCopy = false → Loose w r)
  | prependMap g newMap addCopy => ∃ o r, w.grids.cell g = some o ∧ newMap = some r ∧
    o.arrayVar = none ∧ (∃ c, w.vars.cell r = some c) ∧ (addCopy = false → Loose w r)
  | copyGrid s => ∃ o, w.grids.cell s = some o ∧ o.arrayVar ≠ none
  | assign g s => ∃ o o', w.grids.cell g = some o ∧ w.grids.cell s = some o' ∧
    (g ≠ s → o.mapVars = [] ∧ o'.arrayVar ≠ none)

section
variable {w : World} (hGood : Good w) {g : Nat} {o : GridParts} (hGrid : w.grids.cell g = some o)
include hGood hGrid

theorem addVar_good {bt : Option Nat} {part : PartName} (h : ∀ r, bt = some r →
    ∃ c, w.vars.cell r = some c ∧
      (c.isArray = true → o.arrayVar = none → part ≠ .maps → o.mapVars = [])) :
    ∃ w', (Op.addVar g bt part).after w = some w' ∧ Good w' := by
  cases bt with
  | none => exact ⟨w, rfl, hGood⟩
  | some r =>
    obtain ⟨c, hCell, hFirst⟩ := h r rfl
    have hLoose := hGood.loose_next c
    rw [Op.after, Op.call, addVar, Call.bind_of_ok (readGrid_ok hGrid)]
    by_cases hSet : part = .array ∧ o.arrayVar.isSome
    · rw [if_pos hSet]
      exact ⟨w, rfl, hGood⟩
    · rw [if_neg hSet]
      by_cases hTakes : takesArray o part = true
      · rw [if_pos hTakes, Call.bind_of_ok (readVar_ok hCell)]
        cases hArray : c.isArray with
        | false => exact ⟨w, rfl, hGood⟩
        | true =>
          obtain ⟨hNone, hPart⟩ := arrayVar_of_takesArray hSet hTakes
          rw [Bool.not_true, if_neg (by decide), Call.bind_of_ok (ptrDuplicate_ok hCell),
            takeArray_ok (w := w.withVar c) hGrid hNone (Store.alloc_self c)]
          exact ⟨_, rfl, Good.attachArray (hGood.withVar c) hGrid hNone (hFirst hArray hNone hPart)
            hLoose⟩
      · rw [if_neg hTakes, Call.bind_of_ok (ptrDuplicate_ok hCell), pushMap,
          attach_ok (w := w.withVar c) (Store.alloc_self c)]
        exact ⟨_, rfl, Good.attachMap (hGood.withVar c) hGrid hLoose⟩

theorem addVarNocopy_good {bt : Option Nat} {part : PartName} (h : ∀ r, bt = some r →
    Loose w r ∧ ∃ c, w.vars.cell r = some c ∧
      (c.isArray = true → o.arrayVar = none → part ≠ .maps → o.mapVars = [])) :
    ∃ w', (Op.addVarNocopy g bt part).after w = some w' ∧ Good w' := by
  cases bt with
  | none => exact ⟨w, rfl, hGood⟩
  | some r =>
    obtain ⟨hLoose, c, hCell, hFirst⟩ := h r rfl
    obtain ⟨hParent, hStill⟩ := hGood.withParent g hLoose
    have hThere := Store.modify_self (fun c : Cell => { c with parent := some g }) hCell
    rw [Op.after, Op.call, addVarNocopy, Call.bind_of_ok (readGrid_ok hGrid)]
    by_cases hSet : part = .array ∧ o.arrayVar.isSome
    · rw [if_pos hSet]
      exact ⟨w, rfl, hGood⟩
    · rw [if_neg hSet, Call.bind_of_ok (setParent_ok hCell)]
      by_cases hTakes : takesArray o part = true
      · rw [if_pos hTakes, Call.bind_of_ok (readVar_ok hThere)]
        dsimp only
        cases hArray : c.isArray with
        | false => exact ⟨_, rfl, hParent⟩
        | true =>
          obtain ⟨hNone, hPart⟩ := arrayVar_of_takesArray hSet hTakes
          rw [Bool.not_true, if_neg (by decide), takeArray_ok (by exact hGrid) hNone hThere]
          exact ⟨_, rfl, Good.attachArray hParent hGrid hNone (hFirst hArray hNone hPart) hStill⟩
      · rw [if_neg hTakes]
        exact ⟨_, rfl, hGood.attachMap hGrid hLoose⟩

theorem setArray_good {newArr : Option Nat} (h : newArr = none ∨ newArr = o.arrayVar) :
    ∃ w', (Op.setArray g newArr).after w = some w' ∧ Good w' := by
  cases newArr with
  | none => exact ⟨w, rfl, hGood⟩
  | some r =>
    have hSame : o.arrayVar = some r := (h.resolve_left (by simp)).symm
    rw [Op.after, Op.call, setArray, Call.bind_of_ok (readGrid_ok hGrid), if_pos hSame]
    exact ⟨w, rfl, hGood⟩

theorem addMap_good {newMap : Option Nat} {addAsCopy : Bool} (h : ∀ r, newMap = some r →
    (∃ c, w.vars.cell r = some c) ∧ (addAsCopy = false → Loose w r)) :
    ∃ w', (Op.addMap g newMap addAsCopy).after w = some w' ∧ Good w' := by
  cases newMap with
  | none => exact ⟨w, rfl, hGood⟩
  | some r =>
    obtain ⟨⟨c, hCell⟩, hHanded⟩ := h r rfl
    cases addAsCopy with
    | true =>
      have hCall : (Op.addMap g (some r) true).call w =
          .ok () ((w.withVar c).attach g w.vars.next
            fun o => { o with mapVars := o.mapVars ++ [w.vars.next], vars := o.vars ++ [w.vars.next] }) := by
        change (ptrDuplicate r >>= _) w = _
        rw [Call.bind_of_ok (ptrDuplicate_ok hCell)]
        exact attach_ok (w := w.withVar c) (Store.alloc_self c) _
      exact ⟨_, Op.after_of_ok _ hCall, Good.attachMap (hGood.withVar c) hGrid (hGood.loose_next c)⟩
    | false =>
      have hCall := attach_ok (g := g) hCell
        fun o => { o with mapVars := o.mapVars ++ [r], vars := o.vars ++ [r] }
      exact ⟨_, Op.after_of_ok (.addMap g (some r) false) hCall,
        hGood.attachMap hGrid (hHanded rfl)⟩

theorem prependMap_good {r : Nat} {addCopy : Bool} (hArray : o.arrayVar = none)
    (hLive : ∃ c, w.vars.cell r = some c) (hHanded : addCopy = false → Loose w r) :
    ∃ w', (Op.prependMap g (some r) addCopy).after w = some w' ∧ Good w' := by
  obtain ⟨c, hCell⟩ := hLive
  cases addCopy with
  | true =>
    have hCall : (Op.prependMap g (some r) true).call w =
        .ok () ((w.withVar c).attach g w.vars.next
          fun o => { o with mapVars := w.vars.next :: o.mapVars, vars := w.vars.next :: o.vars }) := by
      change (ptrDuplicate r >>= _) w = _
      rw [Call.bind_of_ok (ptrDuplicate_ok hCell)]
      exact attach_ok (w := w.withVar c) (Store.alloc_self c) _
    exact ⟨_, Op.after_of_ok _ hCall,
      Good.attachFirst (hGood.withVar c) hGrid hArray (hGood.loose_next c)⟩
  | false =>
    have hCall := attach_ok (g := g) hCell
      fun o => { o with mapVars := r :: o.mapVars, vars := r :: o.vars }
    exact ⟨_, Op.after_of_ok (.prependMap g (some r) false) hCall,
      hGood.attachFirst hGrid hArray (hHanded rfl)⟩

end

/-! ## Copies of a whole Grid -/

/-- Every variable that was there is still there. -/
def Stays (w w' : World) : Prop :=
  ∀ r, (∃ c, w.vars.cell r = some c) → ∃ c, w'.vars.cell r = some c

theorem stays_withVar (w : World) (c : Cell) : Stays w (w.withVar c) := by
  rintro r ⟨d, hCell⟩
  exact ⟨d, Store.alloc_of_live c hCell⟩

theorem stays_attach (w : World) (g r : Nat) (f : GridParts → GridParts) : Stays w (w.attach g r f) := by
  rintro q ⟨d, hCell⟩
  by_cases hSame : q = r
  · subst hSame
    exact ⟨_, Store.modify_self _ hCell⟩
  · exact ⟨d, (Store.modify_of_ne _ hSame).trans hCell⟩

theorem duplicateMaps_good {g : Nat} (ms : List Nat) {w : World} {o : GridParts} (hGood : Good w)
    (hGrid : w.grids.cell g = some o) (hLive : ∀ m ∈ ms, ∃ c, w.vars.cell m = some c) :
    ∃ w', duplicateMaps g ms w = .ok () w' ∧ Good w' := by
  induction ms generalizing w o with
  | nil => exact ⟨w, rfl, hGood⟩
  | cons m ms ih =>
    obtain ⟨c, hCell⟩ := hLive m List.mem_cons_self
    have hNext := Good.attachMap (hGood.withVar c) hGrid (hGood.loose_next c)
    obtain ⟨w', hRest, hEnd⟩ := ih hNext (Store.modify_self _ hGrid) fun q hq =>
      stays_attach _ _ _ _ q (stays_withVar w c q (hLive q (List.mem_cons_of_mem m hq)))
    refine ⟨w', ?_, hEnd⟩
    rw [duplicateMaps, Call.bind_of_ok (ptrDuplicate_ok hCell),
      Call.bind_of_ok (setParent_ok (w := w.withVar c) (Store.alloc_self c))]
    exact hRest

/-- `Grid::m_duplicate` on a Grid whose array and maps are gone. -/
theorem gridDuplicate_good {g s : Nat} {w : World} {o source : GridParts} {a : Nat}
    (hGood : GoodBut (some g) w) (hNe : s ≠ g) (hGrid : w.grids.cell g = some o)
    (hArray : o.arrayVar = none) (hMaps : o.mapVars = []) (hSource : w.grids.cell s = some source)
    (hFrom : source.arrayVar = some a) : ∃ w', gridDuplicate g s w = .ok () w' ∧ Good w' := by
  have hKept := hGood s source hSource (by simpa using hNe)
  have hLive : ∀ r ∈ a :: source.mapVars, ∃ c, w.vars.cell r = some c := by
    intro r hr
    obtain ⟨c, hCell, _⟩ := hKept.live r (by rw [hKept.lists, hFrom]; exact hr)
    exact ⟨c, hCell⟩
  obtain ⟨c, hCell⟩ := hLive a List.mem_cons_self
  let w₁ : World := { w with grids := w.grids.modify g fun o => { o with vars := [] } }
  have hCleared : w₁.grids.cell g = some { o with vars := [] } := Store.modify_self _ hGrid
  have hGood₁ : Good w₁ := by
    intro g' o' hGrid' _
    rcases Store.modify_cases hGrid' with ⟨rfl, o₀, hGrid₀, rfl⟩ | ⟨hOther, hGrid₀⟩
    · rw [hGrid] at hGrid₀
      cases hGrid₀
      exact ⟨by rw [hArray, hMaps]; rfl, List.nodup_nil, fun r hr => absurd hr List.not_mem_nil⟩
    · exact (hGood g' o' hGrid₀ (by simpa using hOther)).congr fun _ _ => rfl
  have hTaken := Good.attachArray (hGood₁.withVar c) hCleared hArray hMaps (hGood₁.loose_next c)
  obtain ⟨w', hRest, hEnd⟩ := duplicateMaps_good source.mapVars hTaken (Store.modify_self _ hCleared)
    fun q hq => stays_attach _ _ _ _ q (stays_withVar w₁ c q (hLive q (List.mem_cons_of_mem a hq)))
  refine ⟨w', ?_, hEnd⟩
  have hRead : w₁.grids.cell s = some source := (Store.modify_of_ne _ hNe).trans hSource
  have hClear : modifyGrid g (fun o => { o with vars := [] }) w = .ok () w₁ := rfl
  rw [gridDuplicate, Call.bind_of_ok hClear, Call.bind_of_ok (readGrid_ok hRead), hFrom]
  dsimp only
  rw [Call.bind_of_ok (ptrDuplicate_ok (w := w₁) hCell)]
  refine Call.bind_ok.mpr ⟨(), _, rfl, ?_⟩
  rw [Call.bind_of_ok (setParent_ok (Store.alloc_self c))]
  refine Call.bind_ok.mpr ⟨(), _, rfl, ?_⟩
  rw [Store.modify_modify]
  exact hRest

theorem copyGrid_good {w : World} (hGood : Good w) {s : Nat} {source : GridParts}
    (hSource : w.grids.cell s = some source) (hFrom : source.arrayVar ≠ none) :
    ∃ w', (Op.copyGrid s).after w = some w' ∧ Good w' := by
  obtain ⟨a, hArray⟩ := Option.ne_none_iff_exists'.mp hFrom
  have hNew : Good { w with grids := w.grids.alloc ⟨none, [], []⟩ } := by
    intro g o hGrid _
    rcases Store.alloc_cases hGrid with ⟨_, rfl⟩ | hOld
    · exact ⟨rfl, List.nodup_nil, fun r hr => absurd hr List.not_mem_nil⟩
    · exact (hGood g o hOld (by simp)).congr fun _ _ => rfl
  obtain ⟨w', hCall, hEnd⟩ := gridDuplicate_good (hNew.but _) (Store.ne_next hSource)
    (Store.alloc_self _) rfl rfl (Store.alloc_of_live _ hSource) hArray
  exact ⟨w', Op.after_of_ok (.copyGrid s) hCall, hEnd⟩

/-! ## Assignment -/

theorem duplicateVars_goodBut {g : Nat} (rs : List Nat) {w : World} {o : GridParts}
    (hGood : GoodBut (some g) w) (hGrid : w.grids.cell g = some o)
    (hLive : ∀ r ∈ rs, ∃ c, w.vars.cell r = some c) :
    ∃ w' o', duplicateVars g rs w = .ok () w' ∧ GoodBut (some g) w' ∧ w'.grids.cell g = some o' ∧
      o'.arrayVar = o.arrayVar ∧ o'.mapVars = o.mapVars ∧
      ∀ s, s ≠ g → w'.grids.cell s = w.grids.cell s := by
  induction rs generalizing w o with
  | nil => exact ⟨w, o, rfl, hGood, hGrid, rfl, rfl, fun _ _ => rfl⟩
  | cons r rs ih =>
    obtain ⟨c, hCell⟩ := hLive r List.mem_cons_self
    let f : GridParts → GridParts := fun o => { o with vars := o.vars ++ [w.vars.next] }
    have hNext : GoodBut (some g) ((w.withVar c).attach g w.vars.next f) := by
      intro g' o' hGrid' hNe
      rcases Store.modify_cases hGrid' with ⟨rfl, _⟩ | ⟨_, hOld⟩
      · exact absurd rfl hNe
      · have hKept := hGood g' o' hOld hNe
        apply hKept.congr
        intro q hq
        obtain ⟨d, hThere, _⟩ := hKept.live q hq
        exact (Store.modify_of_ne _ (Store.ne_next hThere)).trans
          (Store.alloc_of_ne c (Store.ne_next hThere))
    obtain ⟨w', o', hRest, hEnd, hGrid', hArray, hMaps, hOthers⟩ :=
      ih hNext (Store.modify_self f hGrid) fun q hq =>
        stays_attach _ _ _ _ q (stays_withVar w c q (hLive q (List.mem_cons_of_mem r hq)))
    refine ⟨w', o', ?_, hEnd, hGrid', hArray, hMaps, ?_⟩
    · rw [duplicateVars, Call.bind_of_ok (ptrDuplicate_ok hCell),
        Call.bind_of_ok (setParent_ok (w := w.withVar c) (Store.alloc_self c))]
      exact hRest
    · intro s hs
      rw [hOthers s hs]
      exact Store.modify_of_ne f hs

/-- The Grid without its old array. -/
theorem deleteArray_goodBut {g : Nat} {w : World} {o : GridParts} (hGood : Good w)
    (hGrid : w.grids.cell g = some o) :
    ∃ w', deleteVars o.arrayVar.toList w = .ok () w' ∧ w'.grids = w.grids ∧ GoodBut (some g) w' := by
  cases hArray : o.arrayVar with
  | none => exact ⟨w, rfl, rfl, hGood.but _⟩
  | some a =>
    obtain ⟨c, hCell, hParent⟩ := (hGood g o hGrid (by simp)).live a (by
      rw [(hGood g o hGrid (by simp)).lists, hArray]
      exact List.mem_cons_self)
    refine ⟨{ w with vars := w.vars.free a }, ?_, rfl, ?_⟩
    · refine Call.bind_ok.mpr ⟨(), _, Call.bind_ok.mpr ⟨c, w, readVar_ok hCell, rfl⟩, rfl⟩
    · intro g' o' hGrid' hNe
      have hKept := hGood g' o' hGrid' (by simp)
      apply hKept.congr
      intro q hq
      apply Store.free_of_ne
      rintro rfl
      obtain ⟨d, hThere, hOwner⟩ := hKept.live q hq
      rw [hCell] at hThere
      cases hThere
      rw [hParent] at hOwner
      exact hNe hOwner.symm

theorem assign_good {w : World} (hGood : Good w) {g s : Nat} {o source : GridParts}
    (hGrid : w.grids.cell g = some o) (hSource : w.grids.cell s = some source)
    (h : g ≠ s → o.mapVars = [] ∧ source.arrayVar ≠ none) :
    ∃ w', (Op.assign g s).after w = some w' ∧ Good w' := by
  by_cases hSelf : g = s
  · rw [Op.after, Op.call, assignParts, if_pos hSelf]
    exact ⟨w, rfl, hGood⟩
  · obtain ⟨hMaps, hFrom⟩ := h hSelf
    obtain ⟨a, hArray⟩ := Option.ne_none_iff_exists'.mp hFrom
    obtain ⟨w₁, hDelete, hGrids, hBut⟩ := deleteArray_goodBut hGood hGrid
    let w₂ : World := { w₁ with grids := w₁.grids.modify g fun o => { o with arrayVar := none } }
    have hGrid₂ : w₂.grids.cell g = some { o with arrayVar := none } :=
      Store.modify_self _ (by rw [hGrids]; exact hGrid)
    have hSource₂ : w₂.grids.cell s = some source :=
      (Store.modify_of_ne _ (Ne.symm hSelf)).trans (by rw [hGrids]; exact hSource)
    have hBut₂ : GoodBut (some g) w₂ := by
      intro g' o' hGrid' hNe
      rcases Store.modify_cases hGrid' with ⟨rfl, _⟩ | ⟨_, hOld⟩
      · exact absurd rfl hNe
      · exact (hBut g' o' hOld hNe).congr fun _ _ => rfl
    have hLive : ∀ r ∈ source.vars, ∃ c, w₂.vars.cell r = some c := by
      intro r hr
      obtain ⟨c, hCell, _⟩ := (hBut₂ s source hSource₂ (by simpa using Ne.symm hSelf)).live r hr
      exact ⟨c, hCell⟩
    obtain ⟨w₃, o', hDuplicate, hBut₃, hGrid₃, hArray₃, hMaps₃, hOthers⟩ :=
      duplicateVars_goodBut source.vars hBut₂ hGrid₂ hLive
    obtain ⟨w', hCall, hEnd⟩ := gridDuplicate_good hBut₃ (Ne.symm hSelf) hGrid₃ hArray₃
      (hMaps₃.trans hMaps) ((hOthers s (Ne.symm hSelf)).trans hSource₂) hArray
    refine ⟨w', ?_, hEnd⟩
    rw [Op.after, Op.call, assignParts, if_neg hSelf, Call.bind_of_ok (readGrid_ok hGrid),
      Call.bind_of_ok hDelete]
    have hClear : modifyGrid g (fun o => { o with arrayVar := none }) w₁ = .ok () w₂ := rfl
    have hNoMaps : deleteVars o.mapVars w₂ = .ok () w₂ := by
      rw [hMaps]
      rfl
    rw [Call.bind_of_ok hClear, Call.bind_of_ok hNoMaps, Call.bind_of_ok (readGrid_ok hSource₂),
      Call.bind_of_ok hDuplicate, hCall]

/-! ## Runs -/

def run : List Op → World → Option World
  | [], w => some w
  | op :: ops, w => (op.after w).bind (run ops)

/-- Every step of the run meets the condition in the state it is taken in. -/
def MeetsAll : List Op → World → Prop
  | [], _ => True
  | op :: ops, w => op.Meets w ∧ ∀ w', op.after w = some w' → MeetsAll ops w'

theorem step_good {w : World} (hGood : Good w) {op : Op} (h : op.Meets w) :
    ∃ w', op.after w = some w' ∧ Good w' := by
  cases op with
  | newVar isArray => exact ⟨_, rfl, GoodBut.withVar hGood ⟨isArray, none⟩⟩
  | newGrid =>
    refine ⟨_, rfl, ?_⟩
    intro g o hGrid _
    rcases Store.alloc_cases hGrid with ⟨_, rfl⟩ | hOld
    · exact ⟨rfl, List.nodup_nil, fun r hr => absurd hr List.not_mem_nil⟩
    · exact (hGood g o hOld (by simp)).congr fun _ _ => rfl
  | addVar g bt part =>
    obtain ⟨o, hGrid, hVar⟩ := h
    exact addVar_good hGood hGrid hVar
  | addVarNocopy g bt part =>
    obtain ⟨o, hGrid, hVar⟩ := h
    exact addVarNocopy_good hGood hGrid hVar
  | setArray g newArr =>
    obtain ⟨o, hGrid, hSame⟩ := h
    exact setArray_good hGood hGrid hSame
  | addMap g newMap addAsCopy =>
    obtain ⟨o, hGrid, hMap⟩ := h
    exact addMap_good hGood hGrid hMap
  | prependMap g newMap addCopy =>
    obtain ⟨o, r, hGrid, rfl, hArray, hLive, hHanded⟩ := h
    exact prependMap_good hGood hGrid hArray hLive hHanded
  | copyGrid s =>
    obtain ⟨o, hSource, hFrom⟩ := h
    exact copyGrid_good hGood hSource hFrom
  | assign g s =>
    obtain ⟨o, o', hGrid, hSource, hAssign⟩ := h
    exact assign_good hGood hGrid hSource hAssign

theorem run_good {ops : List Op} {w : World} (hGood : Good w) (h : MeetsAll ops w) (k : Nat) :
    ∃ w', run (ops.take k) w = some w' ∧ Good w' := by
  induction ops generalizing w k with
  | nil => exact ⟨w, by rw [List.take_nil]; rfl, hGood⟩
  | cons op ops ih =>
    cases k with
    | zero => exact ⟨w, rfl, hGood⟩
    | succ k =>
      obtain ⟨w₁, hStep, hGood₁⟩ := step_good hGood h.1
      obtain ⟨w', hRest, hEnd⟩ := ih hGood₁ (h.2 w₁ hStep) k
      refine ⟨w', ?_, hEnd⟩
      rw [List.take_succ_cons, run, hStep, Option.bind_some, hRest]

/-- In every state of a run whose steps meet the condition, the child list of each Grid is its array
and its maps in their order, each once, all of them there and with the Grid for their parent. -/
theorem child_lists_kept {ops : List Op} (h : MeetsAll ops World.empty) (k : Nat) :
    ∃ w, run (ops.take k) World.empty = some w ∧
      ∀ g o, w.grids.cell g = some o → Consistent w g o := by
  have hStart : Good World.empty := by
    intro g o hGrid _
    cases hGrid
  obtain ⟨w, hRun, hGood⟩ := run_good hStart h k
  exact ⟨w, hRun, fun g o hGrid => hGood g o hGrid (by simp)⟩

theorem array_then_map_kept :
    ∃ w, run ([.newGrid, .newVar true, .addVar 0 (some 0) .nil, .addMap 0 (some 0) true,
        .copyGrid 0].take 5) World.empty = some w ∧
      ∀ g o, w.grids.cell g = some o → Consistent w g o := by
  apply child_lists_kept
  refine ⟨trivial, ?_⟩
  intro w₁ h₁
  cases h₁
  refine ⟨trivial, ?_⟩
  intro w₂ h₂
  cases h₂
  refine ⟨⟨_, rfl, ?_⟩, ?_⟩
  · intro r hr
    cases hr
    exact ⟨_, rfl, fun _ _ _ => rfl⟩
  intro w₃ h₃
  cases h₃
  refine ⟨⟨_, rfl, ?_⟩, ?_⟩
  · intro r hr
    cases hr
    exact ⟨⟨_, rfl⟩, fun h => absurd h (by decide)⟩
  intro w₄ h₄
  cases h₄
  refine ⟨⟨_, rfl, by decide⟩, fun _ _ => trivial⟩

/-- The array that `set_array` takes is not in the child list. -/
theorem set_array_not_in_list :
    ¬ ∀ (ops : List Op) (w : World) (g : Nat) (o : GridParts), run ops World.empty = some w →
      w.grids.cell g = some o → Consistent w g o := by
  intro h
  have hKept := (h [.newGrid, .newVar true, .setArray 0 (some 0)] _ 0 _ rfl rfl).lists
  cases hKept

end Libdap.Dap2
