import Mathlib.Data.List.Nodup
import Libdap.Functions.GridGeoConstraint

/-! # Rows that are joined and turned around

What the two loops that copy the data of a Grid leave, for an array whose last dimension but one is `rows` and whose last
dimension is `cols`.
-/

namespace Libdap.Functions
open Core
set_option autoImplicit false

variable {α : Type} {others : List (List Nat)} {rows cols : List Nat} {cell : List Nat → α}

/-- The values at some indices of each dimension, in row-major order. -/
def layout (others : List (List Nat)) (rows cols : List Nat) (cell : List Nat → α) : List α :=
  (tuples (others ++ [rows, cols])).map cell

def block (rows cols : List Nat) (cell : List Nat → α) (o : List Nat) : List α :=
  rows.flatMap fun i => cols.map fun j => cell (o ++ [i, j])

theorem length_block (o : List Nat) : (block rows cols cell o).length = rows.length * cols.length :=
  length_rows fun _ _ => List.length_map _

theorem layout_blocks : layout others rows cols cell = (tuples others).flatMap (block rows cols cell) := by
  rw [layout, tuples_append, List.map_flatMap]
  congr 1
  funext o
  rw [tuples_pair, List.map_map, List.map_flatMap, block]
  simp only [List.map_map, Function.comp_def]

/-- The same with one row after the other. -/
theorem layout_rows :
    layout others rows cols cell = (tuples (others ++ [rows])).flatMap fun s => cols.map fun j => cell (s ++ [j]) := by
  rw [layout_blocks, tuples_append, List.flatMap_assoc]
  congr 1
  funext o
  rw [block, tuples_singleton, List.map_map, List.flatMap_map]
  simp only [Function.comp_def, List.append_assoc, List.cons_append, List.nil_append]

theorem length_layout : (layout others rows cols cell).length =
    (tuples others).length * (rows.length * cols.length) := by
  rw [layout_blocks]
  exact length_rows fun o _ => length_block o

/-! ## The loop that turns rows around -/

theorem flipRows_ok {data written rest : List α} {offset w sLat lat : Nat}
    (hWritten : written.length = offset + lat * w)
    (hRest : sLat * w ≤ rest.length) (hData : offset + sLat * w ≤ data.length) :
    flipRows data offset w sLat lat (written ++ rest) =
      .ok (written ++ (List.range sLat).reverse.flatMap (fun s => rowAt data (offset + s * w) w) ++
        rest.drop (sLat * w)) := by
  induction sLat generalizing lat written rest with
  | zero => simp [flipRows]
  | succ s ih =>
    rw [Nat.succ_mul] at hRest hData
    have hRow : (rowAt data (offset + s * w) w).length = w := length_rowAt (by omega)
    rw [flipRows, memcpy_next hWritten (by omega) (by omega), ok_bind,
      ih (by rw [List.length_append, hWritten, hRow, Nat.succ_mul, Nat.add_assoc])
        (by rw [List.length_drop]; omega) (by omega),
      List.range_succ, List.reverse_append, List.reverse_singleton, List.singleton_append, List.flatMap_cons,
      List.drop_drop, Nat.succ_mul, Nat.add_comm w, List.append_assoc written]

/-- The rows of each block in the other order, where a row is `w` elements of the memory. -/
def turned {β : Type} (blocks : List β) (f : β → List α) (h w : Nat) : List α :=
  blocks.flatMap fun b => (List.range h).reverse.flatMap fun s => rowAt (f b) (s * w) w

theorem flipBlocks_ok [Inhabited α] {β : Type} {blocks : List β} {f : β → List α} {h w : Nat}
    (hLength : ∀ b ∈ blocks, (f b).length = h * w) (hSome : blocks ≠ []) :
    forFrom (fun i => flipRows (blocks.flatMap f) (i * ((blocks.flatMap f).length / blocks.length)) w h 0) blocks.length
      0
        (List.replicate (blocks.flatMap f).length default) = .ok (turned blocks f h w) := by
  have hPos := List.length_pos_iff.mpr hSome
  have hTotal : (blocks.flatMap f).length = blocks.length * (h * w) := length_rows hLength
  have hEach : (blocks.flatMap f).length / blocks.length = h * w := by
    rw [hTotal, Nat.mul_div_cancel_left _ hPos]
  have hInside {k : Nat} (hk : k < blocks.length) : k * (h * w) + h * w ≤ (blocks.flatMap f).length := by
    rw [hTotal, ← Nat.succ_mul]
    exact Nat.mul_le_mul_right _ hk
  have hBody (k : Nat) (hk : k < blocks.length) (written rest : List α)
      (hWritten : written.length = k * (h * w)) (hRest : h * w ≤ rest.length) :
      flipRows (blocks.flatMap f) (k * ((blocks.flatMap f).length / blocks.length)) w h 0 (written ++ rest) =
        .ok (written ++ (List.range h).reverse.flatMap (fun s => rowAt (blocks.flatMap f) (k * (h * w) + s * w) w) ++
          rest.drop (h * w)) := by
    have hFits := hInside hk
    rw [hEach]
    exact flipRows_ok (by omega) hRest (by omega)
  have hPiece (k : Nat) (hk : k < blocks.length) :
      ((List.range h).reverse.flatMap fun s => rowAt (blocks.flatMap f) (k * (h * w) + s * w) w).length = h * w := by
    have hFits := hInside hk
    rw [length_rows (w := w), List.length_reverse, List.length_range]
    intro s hs
    rw [List.mem_reverse, List.mem_range] at hs
    have hRow : s * w + w ≤ h * w := by
      rw [← Nat.succ_mul]
      exact Nat.mul_le_mul_right _ hs
    exact length_rowAt (by omega)
  rw [forFrom_all _ (by rw [List.length_replicate, hTotal]) hPiece hBody]
  congr 1
  rw [turned]
  apply flatMap_range
  intro i hi
  apply List.flatMap_congr
  intro s hs
  rw [List.mem_reverse, List.mem_range] at hs
  refine rowAt_rows hLength hi ?_
  rw [← Nat.succ_mul]
  exact Nat.mul_le_mul_right _ hs

/-- Where a row of the loop is a row of the array. -/
theorem turned_layout (others : List (List Nat)) (rows cols : List Nat) (cell : List Nat → α) :
    turned (tuples others) (block rows cols cell) rows.length cols.length = layout others rows.reverse cols cell := by
  rw [turned, layout_blocks]
  congr 1
  funext o
  rw [block, block]
  exact flatMap_range_reverse fun i hi => rowAt_whole (fun _ _ => List.length_map _) hi

/-- One row. -/
theorem turned_row {β : Type} {blocks : List β} {f : β → List α} {w : Nat} (h : ∀ x ∈ blocks, (f x).length = w) :
    turned blocks f 1 w = blocks.flatMap f := by
  apply List.flatMap_congr
  intro x hx
  rw [List.range_one, List.reverse_singleton, List.flatMap_singleton, Nat.zero_mul, rowAt, List.drop_zero,
    List.take_of_length_le (Nat.le_of_eq (h x hx))]

/-- One column. -/
theorem turned_column (others : List (List Nat)) (j : Nat) (cols : List Nat) (cell : List Nat → α) :
    turned (tuples others) (block [j] cols cell) cols.length 1 = layout others [j] cols.reverse cell := by
  have hColumn (cols : List Nat) (o : List Nat) : block [j] cols cell o =
      cols.flatMap fun i => [cell (o ++ [j, i])] := by
    rw [block, List.flatMap_singleton, List.map_eq_flatMap]
  rw [turned, layout_blocks]
  congr 1
  funext o
  rw [hColumn, hColumn]
  exact flatMap_range_reverse fun i hi => rowAt_whole (f := fun i => [cell (o ++ [j, i])]) (w := 1) (fun _ _ => rfl) hi

/-! ## Rows of the loop that are no rows of the array -/

theorem getElem?_rowAt {data : List α} {i len k : Nat} (hk : k < len) : (rowAt data i len)[k]? = data[i + k]? := by
  rw [rowAt, List.getElem?_take_of_lt hk, List.getElem?_drop]

theorem getElem?_block (cell : List Nat → α) (o : List Nat) {r c : Nat} (hr : r < rows.length) (hc : c < cols.length) :
    (block rows cols cell o)[r * cols.length + c]? = some (cell (o ++ [rows[r], cols[c]])) := by
  rw [← getElem?_rowAt hc, block, rowAt_whole (fun _ _ => List.length_map _) hr, List.getElem?_map,
    List.getElem?_eq_getElem hc, Option.map_some]

theorem turned_first {h w : Nat} {data : List α} (hData : data.length = h * w) (hPos : 0 < h) {v : Nat} (hv : v < w) :
    ((List.range h).reverse.flatMap fun s => rowAt data (s * w) w)[(h - 1) * w + v]? = data[v]? := by
  have hRow : ∀ s ∈ (List.range h).reverse, (rowAt data (s * w) w).length = w := by
    intro s hs
    rw [List.mem_reverse, List.mem_range] at hs
    refine length_rowAt ?_
    rw [hData, ← Nat.succ_mul]
    exact Nat.mul_le_mul_right _ hs
  rw [← getElem?_rowAt hv, rowAt_whole hRow (by rw [List.length_reverse, List.length_range]; omega),
    List.getElem_reverse, List.getElem_range, List.length_range, getElem?_rowAt hv]
  congr 1
  rw [show h - 1 - (h - 1) = 0 by omega, Nat.zero_mul, Nat.zero_add]

/-- What the two sides of the equation have at the first places of the last row that is copied. -/
theorem turned_eq {o : List Nat} {os : List (List Nat)} (hTuples : tuples others = o :: os) {rows' : List Nat}
    (hLength : rows'.length = rows.length) (hCols : 0 < cols.length)
    (h : turned (tuples others) (block rows cols cell) cols.length rows.length = layout others rows' cols.reverse cell)
    {v r c : Nat} (hv : v < rows.length) (hvc : v < cols.length) (hr : r < rows'.length) (hc : c < cols.reverse.length)
    (hPlace : (cols.length - 1) * rows.length + v = r * cols.length + c) :
    cell (o ++ [rows'[r], cols.reverse[c]]) = cell (o ++ [rows[0], cols[v]]) := by
  have hData (o : List Nat) : (block rows cols cell o).length = cols.length * rows.length := by
    rw [length_block, Nat.mul_comm]
  have hTurned (o : List Nat) : ((List.range cols.length).reverse.flatMap fun s =>
      rowAt (block rows cols cell o) (s * rows.length) rows.length).length = cols.length * rows.length := by
    rw [length_rows (w := rows.length), List.length_reverse, List.length_range]
    intro s hs
    rw [List.mem_reverse, List.mem_range] at hs
    refine length_rowAt ?_
    rw [hData, ← Nat.succ_mul]
    exact Nat.mul_le_mul_right _ hs
  have hBlock (o : List Nat) : (block rows' cols.reverse cell o).length = cols.length * rows.length := by
    rw [length_block, List.length_reverse, hLength, Nat.mul_comm]
  rw [turned, layout_blocks, hTuples, List.flatMap_cons, List.flatMap_cons] at h
  have hFirst := (List.append_inj h ((hTurned o).trans (hBlock o).symm)).1
  have hAt := turned_first (hData o) hCols hv
  rw [hFirst, hPlace] at hAt
  have hThere := getElem?_block cell o hr hc
  have hHere := getElem?_block cell o (r := 0) (by omega : 0 < rows.length) hvc
  rw [List.length_reverse] at hThere
  rw [Nat.zero_mul, Nat.zero_add] at hHere
  rw [hThere, hHere] at hAt
  exact Option.some.inj hAt

/-- With the latitudes `cols` as the last dimension, for some values not even other columns make it the array with its
latitudes turned around. -/
theorem turned_wrong [Nontrivial α] (rows cols : List Nat) (hSome : tuples others ≠ []) (hRows : 1 < rows.length)
    (hCols : 1 < cols.length)
    (hNodup : cols.Nodup) :
    ∃ cell : List Nat → α, ∀ rows' : List Nat, rows'.Nodup → rows'.length = rows.length →
      turned (tuples others) (block rows cols cell) cols.length rows.length ≠ layout others rows' cols.reverse
        cell := by
  obtain ⟨a, b, hab⟩ := exists_pair_ne α
  obtain ⟨o, os, hTuples⟩ := List.exists_cons_of_ne_nil hSome
  have hPos : 0 < cols.length := by omega
  -- the last row that is copied starts `rows.length` before the end of the block
  have hStart : (cols.length - 1) * rows.length + rows.length = cols.length * rows.length := by
    rw [← Nat.succ_mul, Nat.succ_eq_add_one, Nat.sub_add_cancel hPos]
  have hSplit (p : Nat) : p = p / cols.length * cols.length + p % cols.length := (Nat.div_add_mod' p cols.length).symm
  have hRow : (cols.length - 1) * rows.length / cols.length < rows.length := by
    rw [Nat.div_lt_iff_lt_mul hPos, Nat.mul_comm rows.length]
    omega
  have hMod : ((cols.length - 1) * rows.length % cols.length + rows.length % cols.length) % cols.length = 0 := by
    rw [← Nat.add_mod, hStart, Nat.mul_mod_right]
  have hModLt := Nat.mod_lt ((cols.length - 1) * rows.length) hPos
  by_cases hOne : rows.length % cols.length = 1
  · -- the first `cols.length` elements of the block, which are a row of the array, are copied into two of them
    refine ⟨fun is => if is[o.length]? = some rows[0] then a else b, fun rows' hNodup' hLength h => ?_⟩
    have hLong : cols.length < rows.length := by
      by_contra hNot
      rcases Nat.eq_or_lt_of_le (Nat.not_lt.mp hNot) with hSame | hLess
      · rw [hSame, Nat.mod_self] at hOne
        omega
      · rw [Nat.mod_eq_of_lt hLess] at hOne
        omega
    rw [hOne] at hMod
    have hLast : (cols.length - 1) * rows.length % cols.length = cols.length - 1 := by
      by_contra hNot
      rw [Nat.mod_eq_of_lt (by omega)] at hMod
      omega
    have hBegin := hSplit ((cols.length - 1) * rows.length)
    rw [hLast] at hBegin
    generalize (cols.length - 1) * rows.length / cols.length = r at hBegin
    have hNext : (cols.length - 1) * rows.length + (cols.length - 1) = (r + 1) * cols.length + (cols.length - 2) := by
      rw [Nat.succ_mul]
      omega
    have hInside : r + 1 < rows'.length := by
      rw [hLength]
      refine Nat.lt_of_mul_lt_mul_right (a := cols.length) ?_
      rw [Nat.mul_comm rows.length]
      omega
    have hHead (r' c' : Nat) : (o ++ [r', c'])[o.length]? = some r' := by simp
    have hColumn {r' v c : Nat} (hr : r' < rows'.length) (hv : v < cols.length) (hc : c < cols.length)
        (hPlace : (cols.length - 1) * rows.length + v = r' * cols.length + c) : rows'[r'] = rows[0] := by
      have hCell := turned_eq hTuples hLength hPos h (by omega) hv hr (by rw [List.length_reverse]; exact hc) hPlace
      rw [hHead, hHead, if_pos rfl] at hCell
      by_contra hNot
      rw [if_neg fun hSome => hNot (Option.some.inj hSome)] at hCell
      exact hab hCell.symm
    have hHere := hColumn (by omega : r < rows'.length) hPos (by omega : cols.length - 1 < cols.length) hBegin
    have hThere := hColumn hInside (by omega : cols.length - 1 < cols.length)
        (by omega : cols.length - 2 < cols.length) hNext
    have hSame := (List.Nodup.getElem_inj_iff hNodup').mp (hHere.trans hThere.symm)
    omega
  · -- the first element of the block is copied to another latitude
    refine ⟨fun is => if is = o ++ [rows[0], cols[0]] then a else b, fun rows' hNodup' hLength h => ?_⟩
    have hBegin := hSplit ((cols.length - 1) * rows.length)
    generalize (cols.length - 1) * rows.length / cols.length = r at hBegin hRow
    generalize (cols.length - 1) * rows.length % cols.length = c at hBegin hMod hModLt
    have hCell := turned_eq hTuples hLength hPos h (by omega : 0 < rows.length) hPos (hLength ▸ hRow)
      (by rw [List.length_reverse]; exact hModLt) hBegin
    rw [if_pos rfl] at hCell
    split at hCell
    · rename_i hAt
      have hPair := List.append_cancel_left hAt
      injection hPair with _ hTail
      injection hTail with hCol _
      rw [List.getElem_reverse] at hCol
      have hIndex := (List.Nodup.getElem_inj_iff hNodup).mp hCol
      rcases Nat.eq_zero_or_pos (rows.length % cols.length) with hZero | hMore
      · rw [hZero, Nat.add_zero, Nat.mod_eq_of_lt hModLt] at hMod
        omega
      · have hLess := Nat.mod_lt rows.length hPos
        rw [show c + rows.length % cols.length = cols.length + (rows.length % cols.length - 1) by omega,
          Nat.add_mod_left, Nat.mod_eq_of_lt (by omega)] at hMod
        omega
    · exact hab hCell.symm

/-! ## The loop that joins rows -/

theorem joinRow_ok {left right written rest : List α} {l r i : Nat} (hWritten : written.length = i * (l + r))
    (hRest : l + r ≤ rest.length) (hLeft : i * l + l ≤ left.length) (hRight : i * r + r ≤ right.length) :
    joinRow left right l r i (written ++ rest) =
      .ok (written ++ (rowAt left (i * l) l ++ rowAt right (i * r) r) ++ rest.drop (l + r)) := by
  have hRow : (rowAt left (i * l) l).length = l := length_rowAt hLeft
  rw [joinRow, memcpy_next hWritten (by omega) hLeft, ok_bind,
    memcpy_next (by rw [List.length_append, hWritten, hRow]) (by rw [List.length_drop]; omega) hRight, List.drop_drop,
    List.append_assoc written]

/-- The two parts have the same rows, and each row is joined. -/
theorem joinRows_ok [Inhabited α] (others : List (List Nat)) (rows lefts rights : List Nat) (cell : List Nat → α) :
    forFrom (joinRow (layout others rows lefts cell) (layout others rows rights cell) lefts.length rights.length)
        (tuples (others ++ [rows])).length 0
        (List.replicate ((layout others rows lefts cell).length + (layout others rows rights cell).length) default) =
      .ok (layout others rows (lefts ++ rights) cell) := by
  rw [layout_rows, layout_rows, layout_rows]
  generalize tuples (others ++ [rows]) = heads
  have hLeft : ∀ s ∈ heads, (lefts.map fun j => cell (s ++ [j])).length = lefts.length := fun _ _ => List.length_map _
  have hRight : ∀ s ∈ heads, (rights.map fun j => cell (s ++ [j])).length = rights.length :=
      fun _ _ => List.length_map _
  have hInside {k w n : Nat} (hk : k < n) : k * w + w ≤ n * w := by
    rw [← Nat.succ_mul]
    exact Nat.mul_le_mul_right _ hk
  have hTotal : (heads.flatMap fun s => lefts.map fun j => cell (s ++ [j])).length +
      (heads.flatMap fun s => rights.map fun j => cell (s ++ [j])).length =
        heads.length * (lefts.length + rights.length) := by
    rw [length_rows hLeft, length_rows hRight, Nat.mul_add]
  rw [forFrom_all (w := lefts.length + rights.length)
    (fun i => rowAt (heads.flatMap fun s => lefts.map fun j => cell (s ++ [j])) (i * lefts.length) lefts.length ++
      rowAt (heads.flatMap fun s => rights.map fun j => cell (s ++ [j])) (i * rights.length) rights.length)
    (by rw [List.length_replicate, hTotal])]
  · congr 1
    apply flatMap_range
    intro i hi
    rw [rowAt_whole hLeft hi, rowAt_whole hRight hi, List.map_append]
  · intro k hk
    rw [List.length_append, length_rowAt (by rw [length_rows hLeft]; exact hInside hk),
      length_rowAt (by rw [length_rows hRight]; exact hInside hk)]
  · intro k hk written rest hWritten hRest
    exact joinRow_ok hWritten hRest (by rw [length_rows hLeft]; exact hInside hk)
      (by rw [length_rows hRight]; exact hInside hk)

end Libdap.Functions
