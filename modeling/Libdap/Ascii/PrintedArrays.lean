import Libdap.Ascii.AsciiArray

/-! # The text of an array

The rows of an array are printed in row-major order, each with its own indices and its own elements.
-/

namespace Libdap.Ascii
open Core Constraint Http
set_option autoImplicit false

/-- The loop of `get_index` goes on with the places of slower indices. -/
theorem indexFrom_eq {ns is : List Nat} (h : is.length = ns.length) (n multiplier index : Nat) :
    AsciiArray.indexFrom is (n :: ns) multiplier index = index + multiplier * n * Odometer.value ns is := by
  induction is generalizing ns n multiplier index with
  | nil =>
    rw [List.length_eq_zero_iff.mp h.symm]
    rfl
  | cons i is ih =>
    cases ns with
    | nil => cases h
    | cons n' ns =>
      rw [AsciiArray.indexFrom, ih (Nat.succ.inj h), Odometer.value]
      ring

namespace AsciiArray

/-- The text of an element by its place. -/
def get (a : AsciiArray) (k : Nat) : Word := a.elements[k]?.getD []

/-- The text of an element by its indices. -/
def element (a : AsciiArray) (is : List Nat) : Word := a.get (flat a.shape is)

/-- All indices in row-major order. -/
def positions (a : AsciiArray) : List (List Nat) := tuples (a.shape.map List.range)

def rowText (a : AsciiArray) (state : List Nat) : Word :=
  separator.intercalate ((List.range (a.shape.getLast a.hDims)).map fun j => a.element (state ++ [j]))

/-- What is to be printed: a line for each row with its indices, or for each element where they are compound. -/
def text (a : AsciiArray) (printName : Bool) : Word :=
  if a.isSimple then
    if 1 < a.dimensions then
      ['\n'].intercalate ((tuples (a.shape.dropLast.map List.range)).map fun state =>
        a.fullName ++ bracketed state ++ separator ++ a.rowText state)
    else (if printName then a.fullName ++ separator else []) ++ a.rowText []
  else
    ['\n'].intercalate (a.positions.map fun is => a.fullName ++ bracketed is ++ ['\n'] ++ a.element is)

variable (a : AsciiArray)

/-- Every element once. -/
theorem positions_elements : a.positions.map a.element = a.elements := by
  have hAll : ∀ k ∈ List.range a.shape.prod, (a.element ∘ indices a.shape) k = a.get k := fun k hk => by
    rw [Function.comp_apply, element, flat_indices (List.mem_range.mp hk)]
  rw [positions, tuples_range, List.map_map, List.map_congr_left hAll, ← a.hLength]
  refine List.ext_getElem (by simp) fun i _ hi => ?_
  rw [List.getElem_map, List.getElem_range, get, List.getElem?_eq_getElem hi, Option.getD_some]

variable {a} {index number : Nat}

theorem var_eq (h : index < a.elements.length) : a.var index = .ok (a.get index) := by
  rw [var, get, List.getElem?_eq_getElem h, Option.getD_some]

theorem printLoop_eq (h : index + number ≤ a.elements.length) (strm : Word) :
    a.printLoop number index strm =
      .ok (index + number, strm ++ (List.range' index number).flatMap fun k => a.get k ++ separator) := by
  induction number generalizing index strm with
  | zero => simp [printLoop]
  | succ number ih =>
    rw [printLoop, var_eq (by omega), ok_bind, ih (by omega), List.range'_succ, List.flatMap_cons]
    simp only [List.append_assoc]
    rw [Nat.add_right_comm, Nat.add_assoc]

theorem intercalate_concat {α : Type} (sep last : List α) (xs : List (List α)) :
    sep.intercalate (xs ++ [last]) = xs.flatMap (· ++ sep) ++ last := by
  induction xs with
  | nil => simp
  | cons x xs ih =>
    cases xs with
    | nil => simp
    | cons y xs =>
      rw [List.cons_append, List.cons_append, List.intercalate_cons_cons, ← List.cons_append, ih,
        List.flatMap_cons (x := x)]
      simp only [List.append_assoc]

theorem printRow_eq (h : index + number < a.elements.length) (strm : Word) :
    a.printRow strm index number = .ok (index + number + 1,
      strm ++ separator.intercalate ((List.range' index (number + 1)).map a.get)) := by
  rw [printRow, printLoop_eq h.le, ok_bind]
  dsimp only
  rw [var_eq h, ok_bind, List.range'_concat, List.map_append, List.map_singleton, intercalate_concat, Nat.one_mul,
    List.flatMap_map, List.append_assoc]

/-! ## The parts of the shape -/

theorem rows_eq (a : AsciiArray) : a.shape.dropLast ++ [a.shape.getLast a.hDims] = a.shape :=
  List.dropLast_append_getLast a.hDims

theorem prod_eq (a : AsciiArray) : a.elements.length = a.shape.dropLast.prod * a.shape.getLast a.hDims := by
  rw [a.hLength, ← List.prod_singleton (x := a.shape.getLast a.hDims), ← List.prod_append, a.rows_eq]

theorem last_pos (a : AsciiArray) : 0 < a.shape.getLast a.hDims := a.hShape _ (List.getLast_mem a.hDims)

theorem dropLast_pos (a : AsciiArray) : ∀ n ∈ a.shape.dropLast, 0 < n := fun n hn =>
  a.hShape n (List.mem_of_mem_dropLast hn)

theorem getNthDimSize_last (a : AsciiArray) : a.getNthDimSize (a.dimensions - 1) = .ok (a.shape.getLast a.hDims) := by
  rw [getNthDimSize, dimensions, ← List.getLast?_eq_getElem?, List.getLast?_eq_some_getLast a.hDims]

theorem getShapeVector_rows (h : 1 < a.dimensions) : a.getShapeVector (a.dimensions - 1) = .ok a.shape.dropLast := by
  rw [getShapeVector, if_neg (by omega), dimensions, List.dropLast_eq_take]

theorem getShapeVector_all (a : AsciiArray) : a.getShapeVector a.dimensions = .ok a.shape := by
  have hDims : a.dimensions ≠ 0 := fun hZero => a.hDims (List.length_eq_zero_iff.mp hZero)
  rw [getShapeVector, if_neg (by omega), dimensions, List.take_length]

theorem rowText_eq {k : Nat} (h : k < a.shape.dropLast.prod) :
    a.rowText (indices a.shape.dropLast k) = separator.intercalate
      ((List.range' (k * a.shape.getLast a.hDims) (a.shape.getLast a.hDims)).map a.get) := by
  rw [rowText, List.range'_eq_map_range, List.map_map]
  refine congrArg separator.intercalate (List.map_congr_left fun j _ => ?_)
  have hPlace := flat_append (m := a.shape.getLast a.hDims) (j := j) (length_indices a.shape.dropLast k)
  rw [rows_eq, flat_indices h] at hPlace
  rw [Function.comp_apply, element, hPlace]

/-! ## What is printed -/

variable (a)

theorem printVector_eq (h : a.dimensions = 1) (strm : Word) (printName : Bool) :
    a.printVector strm printName =
      .ok (strm ++ ((if printName then a.fullName ++ separator else []) ++ a.rowText [])) := by
  obtain ⟨n, hShape⟩ := List.length_eq_one_iff.mp h
  have hRows : a.shape.dropLast = [] := by rw [hShape]; rfl
  have hLength : a.elements.length = a.shape.getLast a.hDims := by rw [prod_eq, hRows, List.prod_nil, Nat.one_mul]
  have hSize : a.getNthDimSize 0 = .ok (a.shape.getLast a.hDims) := by rw [← getNthDimSize_last, h]
  have hText := rowText_eq (a := a) (k := 0) (by rw [hRows]; exact Nat.one_pos)
  rw [hRows, Nat.zero_mul] at hText
  have hPos := a.last_pos
  obtain ⟨m, hm⟩ : ∃ m, a.shape.getLast a.hDims = m + 1 := ⟨a.shape.getLast a.hDims - 1, by omega⟩
  rw [hm] at hSize hLength hText
  rw [printVector, hSize, ok_bind, Nat.add_sub_cancel, printLoop_eq (by omega), ok_bind]
  dsimp only
  rw [var_eq (by omega), ok_bind, ← List.append_nil (indices [] 0), List.append_nil] at *
  change a.rowText [] = _ at hText
  rw [hText, List.range'_concat, List.map_append, List.map_singleton, intercalate_concat, Nat.one_mul, List.flatMap_map]
  cases printName with
  | true => simp only [if_true, List.append_assoc]
  | false => simp

/-- A row from the place of its first element on. -/
theorem printRow_row {k : Nat} (hk : k < a.shape.dropLast.prod) (strm : Word) :
    a.printRow strm (k * a.shape.getLast a.hDims) (a.shape.getLast a.hDims - 1) =
      .ok ((k + 1) * a.shape.getLast a.hDims, strm ++ a.rowText (indices a.shape.dropLast k)) := by
  have hPos := a.last_pos
  have hEnd : (k + 1) * a.shape.getLast a.hDims ≤ a.elements.length := by
    rw [a.prod_eq]
    exact Nat.mul_le_mul_right _ hk
  rw [Nat.succ_mul] at hEnd
  have hNext : k * a.shape.getLast a.hDims + (a.shape.getLast a.hDims - 1) + 1 = (k + 1) * a.shape.getLast a.hDims := by
    rw [Nat.succ_mul]
    omega
  rw [printRow_eq (by omega), rowText_eq hk, Nat.sub_add_cancel hPos, hNext]

theorem rows_start (a : AsciiArray) : List.replicate (a.dimensions - 1) 0 = indices a.shape.dropLast 0 := by
  rw [indices_zero, List.length_dropLast, dimensions]

/-- Rounds that each print a row behind its label. -/
theorem rows_settle (body : List Nat → Nat → Word → Except Stop (Nat × Word)) (label : List Nat → Word)
    (hBody : ∀ k, k < a.shape.dropLast.prod → ∀ index strm, body (indices a.shape.dropLast k) index strm =
      a.printRow (strm ++ label (indices a.shape.dropLast k)) index (a.shape.getLast a.hDims - 1)) (strm : Word) :
    Settles (fun n => rounds a.shape.dropLast body n (List.replicate (a.dimensions - 1) 0) 0 strm) (.ok (strm ++
      ['\n'].intercalate ((tuples (a.shape.dropLast.map List.range)).map fun state => label state ++
        a.rowText state))) := by
  have hRows : 0 < a.shape.dropLast.prod := prod_pos a.dropLast_pos
  have hLoop := rounds_settle body a.dropLast_pos (fun k => k * a.shape.getLast a.hDims)
    (fun k => label (indices a.shape.dropLast k) ++ a.rowText (indices a.shape.dropLast k))
    (fun k hk strm => by rw [hBody k hk, printRow_row a hk, List.append_assoc])
    (k := 0) (m := a.shape.dropLast.prod - 1) (by omega) strm
  rw [Nat.sub_add_cancel hRows, ← List.range_eq_range', Nat.zero_mul, ← rows_start] at hLoop
  rw [tuples_range, List.map_map]
  exact hLoop

theorem printArray_settles (h : 1 < a.dimensions) (strm : Word) :
    Settles (fun n => a.printArray n strm) (.ok (strm ++
      ['\n'].intercalate ((tuples (a.shape.dropLast.map List.range)).map fun state =>
        a.fullName ++ bracketed state ++ separator ++ a.rowText state))) := by
  have hLoop := a.rows_settle (fun state index strm =>
      a.printRow (strm ++ a.fullName ++ bracketed state ++ separator) index (a.shape.getLast a.hDims - 1))
    (fun state => a.fullName ++ bracketed state ++ separator)
    (fun k _ index strm => by simp only [List.append_assoc]) strm
  refine hLoop.of_eq fun n => ?_
  rw [printArray, if_neg (Nat.not_le.mpr h), getShapeVector_rows h, ok_bind, getNthDimSize_last, ok_bind]

theorem getIndex_indices {k : Nat} (h : k < a.shape.prod) : a.getIndex (indices a.shape k) = .ok k := by
  have hLength : (indices a.shape k).length = a.dimensions := length_indices a.shape k
  rw [getIndex, hLength, if_neg (not_not_intro rfl), getShapeVector_all, ok_bind, indices, List.reverse_reverse]
  cases hReverse : a.shape.reverse with
  | nil => exact absurd (List.reverse_eq_nil_iff.mp hReverse) a.hDims
  | cons n ns =>
    have hValue : Odometer.value a.shape.reverse (Odometer.digits a.shape.reverse k) = k :=
      Odometer.value_digits (by rwa [List.prod_reverse])
    rw [hReverse, Odometer.digits, Odometer.value] at hValue
    rw [Odometer.digits]
    dsimp only
    rw [indexFrom_eq (Odometer.length_digits _ _), Nat.one_mul, hValue]

theorem printComplexArray_settles (strm : Word) :
    Settles (fun n => a.printComplexArray n strm) (.ok (strm ++
      ['\n'].intercalate (a.positions.map fun is => a.fullName ++ bracketed is ++ ['\n'] ++ a.element is))) := by
  have hAll : 0 < a.shape.prod := prod_pos a.hShape
  have hLoop := rounds_settle (fun state (_ : Unit) strm => do
      let index ← a.getIndex state
      let text ← a.var index
      .ok ((), strm ++ a.fullName ++ bracketed state ++ ['\n'] ++ text))
    a.hShape (fun _ => ())
    (fun k => a.fullName ++ bracketed (indices a.shape k) ++ ['\n'] ++ a.element (indices a.shape k))
    (fun k hk strm => by
      rw [getIndex_indices a hk, ok_bind, var_eq (by rwa [a.hLength]), ok_bind, element, flat_indices hk]
      simp only [List.append_assoc])
    (k := 0) (m := a.shape.prod - 1) (by omega) strm
  rw [Nat.sub_add_cancel hAll, ← List.range_eq_range', indices_zero] at hLoop
  rw [positions, tuples_range, List.map_map]
  refine hLoop.of_eq fun n => ?_
  have hDims : ¬a.dimensions < 1 := fun hNone =>
    a.hDims (List.length_eq_zero_iff.mp (Nat.lt_one_iff.mp hNone))
  rw [printComplexArray, if_neg hDims, getShapeVector_all, ok_bind]
  rfl

theorem printAscii_settles (strm : Word) (printName : Bool) :
    Settles (fun n => a.printAscii n strm printName) (.ok (strm ++ a.text printName)) := by
  have hPos : 0 < a.dimensions := List.length_pos_iff.mpr a.hDims
  rw [text]
  by_cases hSimple : a.isSimple = true
  · rw [if_pos hSimple]
    by_cases hMany : 1 < a.dimensions
    · rw [if_pos hMany]
      refine (a.printArray_settles hMany strm).of_eq fun n => ?_
      rw [printAscii, if_pos hSimple, if_pos hMany]
    · rw [if_neg hMany]
      refine Settles.always fun n => ?_
      rw [printAscii, if_pos hSimple, if_neg hMany, a.printVector_eq (by omega)]
  · rw [if_neg hSimple]
    refine (a.printComplexArray_settles strm).of_eq fun n => ?_
    rw [printAscii, if_neg hSimple]

end AsciiArray

/-! ## Grids -/

namespace AsciiGrid

/-- `[map=value]` for each index. -/
def mapValues (maps : List AsciiArray) (state : List Nat) : Word :=
  (maps.zip state).flatMap fun (map, i) => '[' :: (map.fullName ++ '=' :: (map.element [i] ++ [']']))

/-- What is to be printed: the last map, and a line for each row with the values of the other maps. -/
def gridText (g : AsciiGrid) (printName : Bool) : Word :=
  g.maps.getLast?.elim [] (·.text printName) ++ '\n' ::
    ['\n'].intercalate ((tuples (g.array.shape.dropLast.map List.range)).map fun state =>
      g.array.fullName ++ mapValues g.maps state ++ separator ++ g.array.rowText state)

def partText (printName : Bool) (part : AsciiArray) : Word := if part.sendP then part.text printName ++ ['\n'] else []

def text (g : AsciiGrid) (printName : Bool) : Word :=
  if g.yieldsGrid then
    if 1 < g.array.dimensions then g.gridText printName
    else g.maps.head?.elim [] (·.text printName) ++ '\n' :: g.array.text printName
  else (g.maps ++ [g.array]).flatMap (partText printName)

variable {g : AsciiGrid}

theorem element_single {a : AsciiArray} {n i : Nat} (h : a.shape = [n]) : a.element [i] = a.get i := by
  simp [AsciiArray.element, h, flat]

theorem labelled_eq {maps : List AsciiArray} {shape state : List Nat}
    (hMaps : (maps.map AsciiArray.shape).take shape.length = shape.map ([·]))
    (hState : List.Forall₂ (· < ·) state shape)
    (strm : Word) : labelled maps state strm = .ok (strm ++ mapValues maps state) := by
  induction hState generalizing maps strm with
  | nil =>
    cases maps with
    | nil => simp [labelled, mapValues]
    | cons map maps => simp [labelled, mapValues]
  | @cons i n state shape hi _ ih =>
    cases maps with
    | nil => cases hMaps
    | cons map maps =>
      rw [List.map_cons, List.length_cons, List.take_succ_cons, List.map_cons, List.cons.injEq] at hMaps
      obtain ⟨hShape, hRest⟩ := hMaps
      have hLength : i < map.elements.length := by rwa [map.hLength, hShape, List.prod_singleton]
      rw [labelled, AsciiArray.var_eq hLength, ok_bind, ih hRest, mapValues, mapValues, List.zip_cons_cons,
        List.flatMap_cons,
        ← element_single hShape]
      simp only [List.append_assoc, List.cons_append, List.nil_append]

theorem maps_length (h : g.yieldsGrid = true) : g.maps.length = g.array.dimensions := by
  have hLength := congrArg List.length (g.hYields h)
  rwa [List.length_map, List.length_map] at hLength

theorem printGrid_settles (h : g.yieldsGrid = true) (hMany : 1 < g.array.dimensions) (strm : Word) (printName : Bool) :
    Settles (fun n => g.printGrid n strm printName) (.ok (strm ++ g.gridText printName)) := by
  have hLength := maps_length h
  have hMaps : (g.maps.map AsciiArray.shape).take g.array.shape.dropLast.length =
      g.array.shape.dropLast.map ([·]) := by
    rw [g.hYields h, List.length_dropLast, ← List.map_take, List.dropLast_eq_take]
  obtain ⟨rightmostMap, hRightmost⟩ : ∃ map, g.maps[g.array.dimensions - 1]? = some map :=
    ⟨_, List.getElem?_eq_getElem (by omega)⟩
  have hLast : g.maps.getLast? = some rightmostMap := by
    rw [List.getLast?_eq_getElem?, hLength, hRightmost]
  have hMap := rightmostMap.printAscii_settles strm printName
  have hLoop := g.array.rows_settle (fun state index strm => do
      let strm ← labelled g.maps state (strm ++ g.array.fullName)
      g.array.printRow (strm ++ separator) index (g.array.shape.getLast g.array.hDims - 1))
    (fun state => g.array.fullName ++ mapValues g.maps state ++ separator)
    (fun k hk index strm => by
      rw [labelled_eq hMaps (indices_lt g.array.dropLast_pos k), ok_bind]
      simp only [List.append_assoc])
    (strm ++ rightmostMap.text printName ++ ['\n'])
  have hText : strm ++ g.gridText printName = strm ++ rightmostMap.text printName ++ ['\n'] ++
      ['\n'].intercalate ((tuples (g.array.shape.dropLast.map List.range)).map fun state =>
        g.array.fullName ++ mapValues g.maps state ++ separator ++ g.array.rowText state) := by
    rw [gridText, hLast, Option.elim_some]
    simp only [List.append_assoc, List.cons_append, List.nil_append]
  rw [hText]
  refine (Settles.bind (f := fun n strm => rounds _ _ n _ _ (strm ++ ['\n'])) hMap hLoop).of_eq fun n => ?_
  rw [printGrid, if_neg (Nat.not_le.mpr hMany), AsciiArray.getShapeVector_rows hMany, ok_bind,
    AsciiArray.getNthDimSize_last, ok_bind, hRightmost]

theorem printVector_settles (h : g.yieldsGrid = true) (strm : Word) (printName : Bool) :
    Settles (fun n => g.printVector n strm printName)
      (.ok (strm ++ (g.maps.head?.elim [] (·.text printName) ++ '\n' :: g.array.text printName))) := by
  have hPos : 0 < g.array.dimensions := List.length_pos_iff.mpr g.array.hDims
  cases hMaps : g.maps with
  | nil =>
    rw [← maps_length h, hMaps] at hPos
    exact absurd hPos (Nat.lt_irrefl 0)
  | cons map maps =>
    have hMap := map.printAscii_settles strm printName
    have hArray := g.array.printAscii_settles (strm ++ map.text printName ++ ['\n']) printName
    have hText : strm ++ ((map :: maps).head?.elim [] (·.text printName) ++ '\n' :: g.array.text printName) =
        strm ++ map.text printName ++ ['\n'] ++ g.array.text printName := by simp
    rw [hText]
    refine (Settles.bind (f := fun n strm => g.array.printAscii n (strm ++ ['\n']) printName) hMap hArray).of_eq
      fun n => ?_
    rw [printVector, hMaps]

theorem printPart_settles (part : AsciiArray) (strm : Word) (printName : Bool) :
    Settles (fun n => printPart n printName strm part) (.ok (strm ++ partText printName part)) := by
  rw [partText]
  by_cases hSend : part.sendP = true
  · have hPart := (part.printAscii_settles strm printName).map fun r => r.bind fun strm => Except.ok (strm ++ ['\n'])
    rw [if_pos hSend, ← List.append_assoc]
    refine hPart.of_eq fun n => ?_
    rw [printPart, if_pos hSend]
    rfl
  · rw [if_neg hSend, List.append_nil]
    refine Settles.always fun n => ?_
    rw [printPart, if_neg hSend]

theorem parts_settle (parts : List AsciiArray) (strm : Word) (printName : Bool) :
    Settles (fun n => parts.foldlM (printPart n printName) strm)
      (.ok (strm ++ parts.flatMap (partText printName))) := by
  induction parts generalizing strm with
  | nil =>
    rw [List.flatMap_nil, List.append_nil]
    exact Settles.always fun n => rfl
  | cons part parts ih =>
    rw [List.flatMap_cons, ← List.append_assoc]
    refine (Settles.bind (f := fun n strm => parts.foldlM (printPart n printName) strm)
      (printPart_settles part strm printName) (ih _)).of_eq fun n => ?_
    rw [List.foldlM_cons]

theorem printAscii_settles (g : AsciiGrid) (strm : Word) (printName : Bool) :
    Settles (fun n => g.printAscii n strm printName) (.ok (strm ++ g.text printName)) := by
  rw [text]
  by_cases hYields : g.yieldsGrid = true
  · rw [if_pos hYields]
    by_cases hMany : 1 < g.array.dimensions
    · rw [if_pos hMany]
      refine (printGrid_settles hYields hMany strm printName).of_eq fun n => ?_
      rw [printAscii, if_pos hYields, if_pos hMany]
    · rw [if_neg hMany]
      refine (printVector_settles hYields strm printName).of_eq fun n => ?_
      rw [printAscii, if_pos hYields, if_neg hMany]
  · rw [if_neg hYields, List.flatMap_append, List.flatMap_singleton, ← List.append_assoc]
    refine (Settles.bind (f := fun n strm => printPart n printName strm g.array)
      (parts_settle g.maps strm printName) (printPart_settles g.array _ printName)).of_eq fun n => ?_
    rw [printAscii, if_neg hYields]

end AsciiGrid

end Libdap.Ascii
