import Libdap.Hdf5.RowMajorReads

/-! # The paths of reading

What an array holds after `read`, against the elements of its hyperslab in row-major order.
-/

namespace Libdap.Hdf5
open Core Constraint Http
set_option autoImplicit false

namespace DataSet
variable {t : DataType} {slabs : List Slab} {ds : DataSet t (slabs.map Slab.dim)}

/-- The elements of the hyperslab. -/
def selected {dims : List Nat} (ds : DataSet t dims) (slabs : List Slab) : List Element :=
    (places slabs).filterMap (ds.elements[·]?)

/-- The array holds the elements of the hyperslab from its front on. -/
def Holds (ds : DataSet t (slabs.map Slab.dim)) (values : List Value) : Prop :=
  ∀ (i : Nat) (e : Element), (ds.selected slabs)[i]? = some e → values[i]? = some (toValue t e)

theorem place_mem (hInside : ∀ s ∈ slabs, s.Inside) {p : Nat} (hp : p ∈ places slabs) : p < ds.elements.length := by
  rw [ds.hLength]
  exact places_lt hInside p hp

theorem length_places (slabs : List Slab) : (places slabs).length = (slabs.map Slab.count).prod := by
  rw [places_eq, List.length_map, List.length_range]

theorem length_selected (hInside : ∀ s ∈ slabs, s.Inside) :
    (ds.selected slabs).length = (slabs.map Slab.count).prod := by
  rw [selected, length_filterMap_getElem fun p hp => place_mem hInside hp, length_places]

theorem selected_getElem (hInside : ∀ s ∈ slabs, s.Inside) {i : Nat} (hi : i < (slabs.map Slab.count).prod) :
    (ds.selected slabs)[i]? = ds.elements[placeOf slabs (indices (slabs.map Slab.count) i)]? := by
  rw [selected, filterMap_getElem fun p hp => place_mem hInside hp, places_getElem slabs hi, Option.bind_some]

theorem selected_whole (hInside : ∀ s ∈ slabs, s.Inside) (h : (slabs.map Slab.count).prod = ds.elements.length) :
    ds.selected slabs = ds.elements := by
  rw [ds.hLength] at h
  rw [selected, places_whole hInside h, ← ds.hLength, filterMap_range_getElem]

theorem fits_selected (ds : DataSet t (slabs.map Slab.dim)) : ∀ e ∈ ds.selected slabs, Element.Fits t e := by
  intro e he
  obtain ⟨p, -, hp⟩ := List.mem_filterMap.mp he
  exact ds.hFits e (List.mem_of_getElem? hp)

/-- Values that are the elements' own. -/
theorem holds_map (ds : DataSet t (slabs.map Slab.dim)) : ds.Holds ((ds.selected slabs).map (toValue t)) := by
  intro i e he
  rw [List.getElem?_map, he, Option.map_some]

/-! ## Numbers -/

theorem raw_length {e : Element} (ht : 0 < t.size) (h : e.Fits t) : e.raw.length = t.size := by
  cases e with
  | bytes b =>
    cases t with
    | fixedString size hs => exact h.2
    | int8 => exact h.2
    | uint8 => exact h.2
    | int16 => exact h.2
    | uint16 => exact h.2
    | int32 => exact h.2
    | uint32 => exact h.2
    | float32 => exact h.2
    | float64 => exact h.2
    | variableString => cases ht
    | objectReference => cases ht
    | regionReference => cases ht
    | compound => cases ht
  | _ => cases t <;> first | exact absurd ht (Nat.lt_irrefl 0) | exact h.elim

theorem numbers_eq {es : List Element} {f : Element → Bytes} {width : Nat} (h : ∀ e ∈ es, (f e).length = width) :
    numbers (es.flatMap f) es.length width = .ok (es.map fun e => .number (f e)) := by
  rw [numbers, if_pos (Nat.le_of_eq (length_rows h).symm)]
  refine congrArg Except.ok (List.ext_getElem (by simp) fun i hi hi' => ?_)
  rw [List.length_map] at hi'
  rw [List.getElem_map, List.getElem_range, List.getElem_map, rowAt_whole h hi']

theorem numbers_error {val : Bytes} {length width : Nat} (h : val.length < length * width) :
    numbers val length width = .error .outOfBounds := if_neg (Nat.not_le.mpr h)

theorem getStrdata_eq {es : List Element} {elesize : Nat} (h : ∀ e ∈ es, e.raw.length = elesize) {i : Nat}
    (hi : i < es.length) : getStrdata (fileBytes es) elesize i = .ok (cString es[i].raw) := by
  have hRow : rowAt (fileBytes es) (i * elesize) elesize = es[i].raw := rowAt_whole h hi
  rw [getStrdata, hRow]
  exact if_pos (.inr (h _ (List.getElem_mem hi)))

/-- Behind the last string there is none. -/
theorem getStrdata_error {es : List Element} {elesize : Nat} (hSize : 0 < elesize)
    (h : ∀ e ∈ es, e.raw.length = elesize) : getStrdata (fileBytes es) elesize es.length = .error .outOfBounds := by
  have hRow : rowAt (fileBytes es) (es.length * elesize) elesize = [] := by
    have hLength : (fileBytes es).length = es.length * elesize := length_rows h
    rw [rowAt, List.drop_eq_nil_of_le (Nat.le_of_eq hLength), List.take_nil]
  rw [getStrdata, hRow]
  refine if_neg ?_
  rintro (hMem | hLength)
  · cases hMem
  · exact absurd hLength.symm hSize.ne'

theorem shorts_eq (convbuf : Bytes) : shorts convbuf convbuf.length = .ok (convbuf.flatMap toShort) := by
  have hAll : ∀ i ∈ List.range convbuf.length, shortAt convbuf i = .ok (toShort (convbuf[i]?.getD 0)) := by
    intro i hi
    rw [shortAt, List.getElem?_eq_getElem (List.mem_range.mp hi), Option.getD_some]
  rw [shorts, mapM_ok hAll, ok_bind, ← List.flatMap_def]
  refine congrArg Except.ok (flatMap_range fun i hi => ?_)
  rw [List.getElem?_eq_getElem hi, Option.getD_some]

/-! ## Values by their places -/

def valueAt {dims : List Nat} (ds : DataSet t dims) (p : Nat) : Value :=
    (ds.elements[p]?.map (toValue t)).getD (.text [])

theorem valueAt_some {dims : List Nat} {ds : DataSet t dims} {p : Nat} {e : Element} (h : ds.elements[p]? = some e) :
    ds.valueAt p = toValue t e := by rw [valueAt, h, Option.map_some, Option.getD_some]

/-- The place of an element by its number in the hyperslab. -/
def placeAt (slabs : List Slab) (i : Nat) : Nat := placeOf slabs (indices (slabs.map Slab.count) i)

theorem placeAt_lt (hInside : ∀ s ∈ slabs, s.Inside) (i : Nat) : placeAt slabs i < (slabs.map Slab.dim).prod :=
  placeOf_lt hInside (indices_lt (counts_pos hInside) i)

theorem pickAt_lt (hInside : ∀ s ∈ slabs, s.Inside) (i : Nat) : pickAt slabs i < (slabs.map Slab.dim).prod :=
  placeOf_lt hInside (Odometer.digits_lt (counts_pos hInside) i)

theorem holds_iff (hInside : ∀ s ∈ slabs, s.Inside) {values : List Value} : ds.Holds values ↔
    ∀ i, i < (slabs.map Slab.count).prod → values[i]? = some (ds.valueAt (placeAt slabs i)) := by
  constructor
  · intro h i hi
    have hPlace : placeAt slabs i < ds.elements.length := by
      rw [ds.hLength]
      exact placeAt_lt hInside i
    have hElement := List.getElem?_eq_getElem hPlace
    rw [valueAt_some hElement]
    exact h i _ ((selected_getElem hInside hi).trans hElement)
  · intro h i e he
    have hi : i < (slabs.map Slab.count).prod := by
      rw [← @length_selected _ _ ds hInside]
      exact (List.getElem?_eq_some_iff.mp he).1
    rw [selected_getElem hInside hi] at he
    rw [h i hi, placeAt, valueAt_some he]

/-! ## Records -/

theorem arrayOfStructure_eq (hInside : ∀ s ∈ slabs, s.Inside) (hFits : ((slabs.map Slab.dim).prod : Int) ≤ Core.INT_MAX) :
    ds.arrayOfStructure (slabs.map Slab.count).prod slabs = .ok ((picksOf slabs).map ds.valueAt) := by
  rw [arrayOfStructure, linearize_ok hInside hFits, ok_bind]
  dsimp only
  refine mapM_ok fun p hp => ?_
  obtain ⟨k, -, rfl⟩ := List.mem_map.mp hp
  have hLess := pickAt_lt hInside k
  have hThere : pickAt slabs k < ds.elements.length := by rwa [ds.hLength]
  have hElement := List.getElem?_eq_getElem hThere
  rw [if_pos hLess, valueAt_some hElement, hElement]

theorem structure_holds (hInside : ∀ s ∈ slabs, s.Inside) (h : OneWide slabs) :
    ds.Holds ((picksOf slabs).map ds.valueAt) := by
  rw [holds_iff hInside, picks_of_oneWide hInside h]
  intro i hi
  rw [List.getElem?_map, places_getElem slabs hi, Option.map_some]
  rfl

/-! ## Lookups by the first dimension -/

def firstAt (slabs : List Slab) (i : Nat) : Nat := slabs.head?.elim 0 (·.at i)

theorem byFirst_iff_firstAt (hSome : slabs ≠ []) (hInside : ∀ s ∈ slabs, s.Inside) :
    ByFirst slabs ↔ ∀ i, i < (slabs.map Slab.count).prod → placeAt slabs i = firstAt slabs i := by
  cases slabs with
  | nil => exact absurd rfl hSome
  | cons s slabs => exact byFirst_iff hInside

theorem byFirst_ok (hSome : slabs ≠ []) {i : Nat} {e : Element} :
    ds.byFirst slabs i = .ok e ↔ ds.elements[firstAt slabs i]? = some e := by
  cases slabs with
  | nil => exact absurd rfl hSome
  | cons s slabs =>
    change ds.byFirst (s :: slabs) i = .ok e ↔ ds.elements[s.offset + i * s.step]? = some e
    rw [byFirst]
    cases ds.elements[s.offset + i * s.step]? with
    | none => exact iff_of_false (by intro h; cases h) (by intro h; cases h)
    | some e' => exact ⟨fun h => congrArg some (Except.ok.inj h), fun h => congrArg Except.ok (Option.some.inj h)⟩

theorem firstAt_element (hSome : slabs ≠ []) (hInside : ∀ s ∈ slabs, s.Inside) (h : ByFirst slabs) {i : Nat}
    (hi : i < (slabs.map Slab.count).prod) :
    ∃ e, ds.byFirst slabs i = .ok e ∧ e ∈ ds.elements ∧ toValue t e = ds.valueAt (placeAt slabs i) := by
  have hPlace := (byFirst_iff_firstAt hSome hInside).mp h i hi
  have hLess : placeAt slabs i < ds.elements.length := by
    rw [ds.hLength]
    exact placeAt_lt hInside i
  have hElement := List.getElem?_eq_getElem hLess
  exact ⟨_, (byFirst_ok hSome).mpr (hPlace ▸ hElement), List.getElem_mem hLess, (valueAt_some hElement).symm⟩

/-- What is looked up and formed for each number. -/
theorem lookups_eq (hSome : slabs ≠ []) (hInside : ∀ s ∈ slabs, s.Inside) (h : ByFirst slabs) {form : Element → Value}
    (hForm : ∀ e ∈ ds.elements, form e = toValue t e) :
    (List.range (slabs.map Slab.count).prod).mapM (fun i => do
      let e ← ds.byFirst slabs i
      .ok (form e)) =
      .ok ((List.range (slabs.map Slab.count).prod).map fun i => ds.valueAt (placeAt slabs i)) := by
  refine mapM_ok fun i hi => ?_
  obtain ⟨e, he, hMem, hValue⟩ := @firstAt_element _ _ ds hSome hInside h _ (List.mem_range.mp hi)
  rw [he, ok_bind, hForm e hMem, hValue]

theorem lookups_hold (hInside : ∀ s ∈ slabs, s.Inside) (more : List Value) : ds.Holds
    ((List.range (slabs.map Slab.count).prod).map (fun i => ds.valueAt (placeAt slabs i)) ++ more) := by
  rw [holds_iff hInside]
  intro i hi
  rw [List.getElem?_append_left (by rwa [List.length_map, List.length_range]), List.getElem?_map,
    List.getElem?_range hi,
    Option.map_some]

/-- Where the strings differ, the lookups tell the places. -/
theorem byFirst_of_lookups (hSome : slabs ≠ []) (hInside : ∀ s ∈ slabs, s.Inside) {form : Element → Value}
    (hForm : ∀ e ∈ ds.elements, form e = toValue t e)
    (hApart : ∀ p q, p < ds.elements.length → q < ds.elements.length → ds.valueAt p = ds.valueAt q → p = q)
    {values more : List Value} (hRun : (List.range (slabs.map Slab.count).prod).mapM (fun i => do
      let e ← ds.byFirst slabs i
      .ok (form e)) = .ok values) (hHolds : ds.Holds (values ++ more)) : ByFirst slabs := by
  rw [byFirst_iff_firstAt hSome hInside]
  intro i hi
  obtain ⟨value, hValue, hForms⟩ := mapM_getElem hRun (List.getElem?_range hi)
  obtain ⟨e, he, hForms⟩ := bind_eq_ok hForms
  have hElement := (byFirst_ok hSome).mp he
  have hThere := (holds_iff hInside).mp hHolds i hi
  have hLength : i < values.length := (List.getElem?_eq_some_iff.mp hValue).1
  rw [List.getElem?_append_left hLength, hValue, ← Except.ok.inj hForms, hForm e (List.mem_of_getElem? hElement),
    ← valueAt_some hElement] at hThere
  refine (hApart _ _ (List.getElem?_eq_some_iff.mp hElement).1 ?_ (Option.some.inj hThere)).symm
  rw [ds.hLength]
  exact placeAt_lt hInside i

/-! ## Strings of variable length -/

theorem le_foldl_max (es : List Element) (n : Nat) :
    n ≤ es.foldl (fun sizeMax e => max sizeMax (strlen e)) n ∧
      ∀ e ∈ es, strlen e ≤ es.foldl (fun sizeMax e => max sizeMax (strlen e)) n := by
  induction es generalizing n with
  | nil => exact ⟨Nat.le_refl n, nofun⟩
  | cons e es ih =>
    obtain ⟨hMax, hAll⟩ := ih (max n (strlen e))
    exact ⟨le_trans (le_max_left _ _) hMax, List.forall_mem_cons.mpr ⟨le_trans (le_max_right _ _) hMax, hAll⟩⟩

theorem copied_eq {ds : DataSet .variableString (slabs.map Slab.dim)} : ∀ e ∈ ds.elements,
    Value.text (copied (ds.elements.foldl (fun sizeMax e => max sizeMax (strlen e)) 0) e) =
      toValue .variableString e := by
  intro e he
  have hLength := (le_foldl_max ds.elements 0).2 e he
  have hFits := ds.hFits e he
  cases e with
  | string s =>
    cases s with
    | none => rfl
    | some s =>
      rw [copied, List.take_of_length_le hLength]
      rfl
  | bytes b => exact absurd hFits.1 (Nat.lt_irrefl 0)
  | object name => exact hFits.elim
  | region target => exact hFits.elim
  | record fields => exact hFits.elim

/-! ## Which constraints keep the order -/

end DataSet

/-- Whether the path of the data type keeps the row-major order. -/
def DataType.Follows (slabs : List Slab) : DataType → Prop
  | .compound => OneWide slabs
  | .variableString | .objectReference | .regionReference => ByFirst slabs
  | .int8 | .fixedString _ _ => (slabs.map Slab.count).prod = (slabs.map Slab.dim).prod
  | _ => True

namespace DataSet
variable {t : DataType} {slabs : List Slab} {ds : DataSet t (slabs.map Slab.dim)}

/-- `read` behind the check of the constraint. -/
def readSlabs (ds : DataSet t (slabs.map Slab.dim)) (length : Nat) : Except Fault (List Value) :=
  if getDapType t = "Structure" then ds.arrayOfStructure (slabs.map Slab.count).prod slabs
  else if getDapType t = "Url" then ds.arrayOfReference (slabs.map Slab.count).prod slabs
  else if isVariableStr t then ds.readVlenString (slabs.map Slab.count).prod slabs
  else if (slabs.map Slab.count).prod = ds.elements.length then
    if isInt8 t then do
      let convbuf2 ← shorts (fileBytes ds.elements) (slabs.map Slab.count).prod
      ds.internPlainArrayData length convbuf2
    else ds.internPlainArrayData length (fileBytes ds.elements)
  else if getDapType t = "Int8" then do
    let convbuf2 ← shorts (fileBytes (ds.hyperslab slabs)) ((slabs.map Slab.count).prod * t.size)
    ds.internPlainArrayData length convbuf2
  else ds.internPlainArrayData length (fileBytes (ds.hyperslab slabs))

/-- No type is called `Int8`, so that signed bytes are converted only in whole datasets. -/
def IsPlain (t : DataType) : Prop :=
  getDapType t ≠ "Structure" ∧ getDapType t ≠ "Url" ∧ getDapType t ≠ "Int8" ∧ isVariableStr t = false

theorem readSlabs_plain (h : IsPlain t) (length : Nat) : ds.readSlabs length =
    if (slabs.map Slab.count).prod = ds.elements.length then
      if isInt8 t then do
        let convbuf2 ← shorts (fileBytes ds.elements) (slabs.map Slab.count).prod
        ds.internPlainArrayData length convbuf2
      else ds.internPlainArrayData length (fileBytes ds.elements)
    else ds.internPlainArrayData length (fileBytes (ds.hyperslab slabs)) := by
  obtain ⟨hStructure, hUrl, hInt8, hString⟩ := h
  rw [readSlabs, if_neg hStructure, if_neg hUrl, hString, if_neg Bool.false_ne_true, if_neg hInt8]

/-- Numbers that are no signed bytes. -/
structure IsNumber (t : DataType) : Prop where
  plain : IsPlain t
  size : 0 < t.size
  width : t.width = t.size
  int8 : isInt8 t = false
  value : ∀ b, toValue t (.bytes b) = .number b
  intern : ∀ {dims : List Nat} (ds : DataSet t dims) (length : Nat) (convbuf : Bytes),
    ds.internPlainArrayData length convbuf = numbers convbuf length t.width

theorem hyperslab_eq (hInside : ∀ s ∈ slabs, s.Inside) : ds.hyperslab slabs = ds.selected slabs :=
  ds.hSlab slabs rfl hInside

theorem toValue_number (ht : IsNumber t) {e : Element} (h : e.Fits t) : toValue t e = .number e.raw := by
  cases e with
  | bytes b => exact ht.value b
  | _ => cases t <;> first | exact h.elim | exact absurd ht.size (Nat.lt_irrefl 0)

theorem number_holds (hInside : ∀ s ∈ slabs, s.Inside) (ht : IsNumber t) :
    ∃ values, ds.readSlabs (slabs.map Slab.count).prod = .ok values ∧ ds.Holds values := by
  have hAll : ∀ e ∈ ds.selected slabs, e.raw.length = t.size := fun e he => raw_length ht.size (fits_selected ds e he)
  have hRun : numbers (fileBytes (ds.selected slabs)) (slabs.map Slab.count).prod t.width =
      .ok ((ds.selected slabs).map (toValue t)) := by
    rw [← @length_selected _ _ ds hInside, ht.width, fileBytes, numbers_eq hAll]
    refine congrArg Except.ok (List.map_congr_left fun e he => ?_)
    exact (toValue_number ht (fits_selected ds e he)).symm
  refine ⟨_, ?_, holds_map ds⟩
  rw [readSlabs_plain ht.plain, ht.int8, ← hRun]
  split
  · rename_i hWhole
    rw [if_neg Bool.false_ne_true, ht.intern, selected_whole hInside hWhole]
  · rw [ht.intern, hyperslab_eq hInside]

/-! ## Bytes that are converted -/

theorem toValue_int8 {e : Element} (h : e.Fits .int8) : toValue .int8 e = .number (e.raw.flatMap toShort) := by
  cases e with
  | bytes b => rfl
  | _ => exact h.elim

theorem int8_raw {e : Element} (h : e.Fits .int8) : (e.raw.flatMap toShort).length = 2 := by
  obtain ⟨c, hc⟩ := List.length_eq_one_iff.mp (raw_length (t := .int8) Nat.one_pos h)
  rw [hc]
  rfl

theorem int8_iff {ds : DataSet .int8 (slabs.map Slab.dim)} (hInside : ∀ s ∈ slabs, s.Inside) :
    (∃ values, ds.readSlabs (slabs.map Slab.count).prod = .ok values ∧ ds.Holds values) ↔
      (slabs.map Slab.count).prod = (slabs.map Slab.dim).prod := by
  have hPlain : IsPlain .int8 := ⟨by decide, by decide, by decide, rfl⟩
  have hRaw : ∀ e ∈ ds.selected slabs, e.raw.length = 1 := fun e he =>
    raw_length (t := .int8) Nat.one_pos (fits_selected ds e he)
  rw [← ds.hLength, readSlabs_plain hPlain]
  constructor
  · rintro ⟨values, hRun, -⟩
    by_contra hPart
    have hPos := prod_pos (counts_pos hInside)
    have hBytes : (fileBytes (ds.selected slabs)).length = (slabs.map Slab.count).prod * 1 := by
      rw [← @length_selected _ _ ds hInside]
      exact length_rows hRaw
    have hShort : (fileBytes (ds.selected slabs)).length < (slabs.map Slab.count).prod * 2 := by omega
    rw [if_neg hPart, hyperslab_eq hInside] at hRun
    change numbers _ _ 2 = _ at hRun
    rw [numbers_error hShort] at hRun
    cases hRun
  · intro hWhole
    have hSelected := selected_whole hInside hWhole
    rw [hSelected] at hRaw
    have hBytes : (fileBytes ds.elements).length = (slabs.map Slab.count).prod := by
      rw [hWhole, ← Nat.mul_one ds.elements.length]
      exact length_rows hRaw
    have hShorts : (fileBytes ds.elements).flatMap toShort = ds.elements.flatMap fun e => e.raw.flatMap toShort :=
      List.flatMap_assoc
    have hNumbers : numbers (ds.elements.flatMap fun e => e.raw.flatMap toShort) (slabs.map Slab.count).prod 2 =
        .ok (ds.elements.map (toValue .int8)) := by
      rw [hWhole, numbers_eq fun e he => int8_raw (ds.hFits e he)]
      refine congrArg Except.ok (List.map_congr_left fun e he => ?_)
      exact (toValue_int8 (ds.hFits e he)).symm
    refine ⟨ds.elements.map (toValue .int8), ?_, ?_⟩
    · rw [if_pos hWhole]
      change (shorts _ _ >>= _) = _
      rw [← hBytes, shorts_eq, ok_bind, hShorts, hBytes]
      exact hNumbers
    · rw [← hSelected]
      exact holds_map ds

theorem toValue_string {size : Nat} {h : 0 < size} {e : Element} (hFits : e.Fits (.fixedString size h)) :
    toValue (.fixedString size h) e = .text (cString e.raw) := by
  cases e with
  | bytes b => rfl
  | _ => exact hFits.elim

theorem fixedString_iff {size : Nat} {h : 0 < size} {ds : DataSet (.fixedString size h) (slabs.map Slab.dim)}
    (hInside : ∀ s ∈ slabs, s.Inside) :
    (∃ values, ds.readSlabs (slabs.map Slab.count).prod = .ok values ∧ ds.Holds values) ↔
      (slabs.map Slab.count).prod = (slabs.map Slab.dim).prod := by
  have hRaw : ∀ e ∈ ds.selected slabs, e.raw.length = size := fun e he =>
    raw_length (t := .fixedString size h) h (fits_selected ds e he)
  have hPlain : IsPlain (.fixedString size h) :=
    ⟨(by decide : "String" ≠ "Structure"), (by decide : "String" ≠ "Url"), (by decide : "String" ≠ "Int8"), rfl⟩
  rw [← ds.hLength, readSlabs_plain hPlain]
  constructor
  · rintro ⟨values, hRun, -⟩
    by_contra hPart
    have hLess : (slabs.map Slab.count).prod < ds.elements.length := by
      refine lt_of_le_of_ne ?_ hPart
      rw [ds.hLength]
      exact counts_le hInside
    rw [if_neg hPart, hyperslab_eq hInside] at hRun
    obtain ⟨strings, hStrings, -⟩ := bind_eq_ok hRun
    obtain ⟨b, -, hLast⟩ := mapM_getElem hStrings (List.getElem?_range hLess)
    rw [← @length_selected _ _ ds hInside, getStrdata_error h hRaw] at hLast
    cases hLast
  · intro hWhole
    have hSelected := selected_whole hInside hWhole
    rw [hSelected] at hRaw
    have hStrings : (List.range ds.elements.length).mapM (getStrdata (fileBytes ds.elements) size) =
        .ok (ds.elements.map fun e => cString e.raw) := by
      have hAll : ∀ i ∈ List.range ds.elements.length, getStrdata (fileBytes ds.elements) size i =
          .ok (cString (ds.elements[i]?.elim [] Element.raw)) := by
        intro i hi
        rw [getStrdata_eq hRaw (List.mem_range.mp hi), List.getElem?_eq_getElem (List.mem_range.mp hi),
          Option.elim_some]
      rw [mapM_ok hAll]
      refine congrArg Except.ok (List.ext_getElem (by simp) fun i hi hi' => ?_)
      rw [List.length_map] at hi'
      rw [List.getElem_map, List.getElem_range, List.getElem_map, List.getElem?_eq_getElem hi', Option.elim_some]
    refine ⟨ds.elements.map (toValue (.fixedString size h)), ?_, ?_⟩
    · rw [if_pos hWhole]
      change (_ >>= _) = _
      rw [hStrings, ok_bind, hWhole, List.length_map, if_pos (Nat.le_refl _),
        List.take_of_length_le (by rw [List.length_map]),
        List.map_map]
      refine congrArg Except.ok (List.map_congr_left fun e he => ?_)
      exact (toValue_string (ds.hFits e he)).symm
    · rw [← hSelected]
      exact holds_map ds

/-! ## Datasets that tell their places -/

/-- An element that differs from place to place, where the type allows it. -/
def label (t : DataType) (p : Nat) : Element :=
  match t with
  | .variableString => .string (some (decimal p))
  | .objectReference => .object (decimal p)
  | .regionReference => .region (some (decimal p, .hyperslabs []))
  | .compound => .record (decimal p)
  | t => .bytes (List.replicate t.size 0)

theorem label_fits (t : DataType) (p : Nat) : Element.Fits t (label t p) := by
  cases t with
  | variableString => trivial
  | objectReference => trivial
  | regionReference => trivial
  | compound => trivial
  | fixedString size h => exact ⟨h, List.length_replicate⟩
  | _ => exact ⟨by decide, List.length_replicate⟩

def labelled (t : DataType) (dims : List Nat) : DataSet t dims where
  elements := (List.range dims.prod).map (label t)
  hyperslab slabs := (places slabs).filterMap (((List.range dims.prod).map (label t))[·]?)
  hFits e he := by
    obtain ⟨p, -, rfl⟩ := List.mem_map.mp he
    exact label_fits t p
  hLength := by rw [List.length_map, List.length_range]
  hSlab _ _ _ := rfl

/-- The types whose elements are looked up one by one. -/
def IsLookedUp : DataType → Prop
  | .variableString | .objectReference | .regionReference | .compound => True
  | _ => False

theorem label_inj (ht : IsLookedUp t) {p q : Nat} (h : toValue t (label t p) = toValue t (label t q)) : p = q := by
  cases t with
  | variableString => exact decimal_injective (Value.text.inj h)
  | objectReference => exact decimal_injective (Value.text.inj h)
  | regionReference =>
    have hText : decimal p ++ [] = decimal q ++ [] := Value.text.inj h
    rw [List.append_nil, List.append_nil] at hText
    exact decimal_injective hText
  | compound => exact decimal_injective (Value.record.inj h)
  | _ => exact ht.elim

theorem labelled_apart (ht : IsLookedUp t) {dims : List Nat} (p q : Nat) (hp : p < (labelled t dims).elements.length)
    (hq : q < (labelled t dims).elements.length) (h : (labelled t dims).valueAt p = (labelled t dims).valueAt q) :
    p = q := by
  have hValue (n : Nat) (hn : n < (labelled t dims).elements.length) :
      (labelled t dims).valueAt n = toValue t (label t n) := by
    rw [(labelled t dims).hLength] at hn
    refine valueAt_some ?_
    change ((List.range dims.prod).map (label t))[n]? = _
    rw [List.getElem?_map, List.getElem?_range hn, Option.map_some]
  rw [hValue p hp, hValue q hq] at h
  exact label_inj ht h

/-! ## All data types -/

theorem structure_follows (hInside : ∀ s ∈ slabs, s.Inside) (hFits : ((slabs.map Slab.dim).prod : Int) ≤ Core.INT_MAX) :
    (∀ ds : DataSet .compound (slabs.map Slab.dim),
      ∃ values, ds.readSlabs (slabs.map Slab.count).prod = .ok values ∧ ds.Holds values) ↔ OneWide slabs := by
  have hRead (ds : DataSet .compound (slabs.map Slab.dim)) (length : Nat) :
      ds.readSlabs length = .ok ((picksOf slabs).map ds.valueAt) := by
    have hName : getDapType .compound = "Structure" := rfl
    rw [readSlabs, if_pos hName, arrayOfStructure_eq hInside hFits]
  constructor
  · intro hAll
    obtain ⟨values, hRun, hHolds⟩ := hAll (labelled .compound _)
    obtain rfl := Except.ok.inj ((hRead _ _).symm.trans hRun)
    refine oneWide_of_second hInside fun hMany => ?_
    have hSecond := (holds_iff hInside).mp hHolds 1 hMany
    rw [List.getElem?_map, picks_getElem slabs hMany, Option.map_some] at hSecond
    have hLess := (labelled .compound (slabs.map Slab.dim)).hLength
    exact labelled_apart (t := .compound) trivial _ _ (hLess ▸ pickAt_lt hInside 1) (hLess ▸ placeAt_lt hInside 1)
      (Option.some.inj hSecond)
  · exact fun hOne ds => ⟨_, hRead ds _, structure_holds hInside hOne⟩

/-- Types that are looked up by the first dimension and formed one by one. -/
theorem lookups_follow (hSome : slabs ≠ []) (hInside : ∀ s ∈ slabs, s.Inside) (ht : IsLookedUp t)
    (form : DataSet t (slabs.map Slab.dim) → Element → Value) (hForm : ∀ ds, ∀ e ∈ ds.elements, form ds e = toValue t e)
    (more : DataSet t (slabs.map Slab.dim) → List Value)
    (hRead : ∀ (ds : DataSet t (slabs.map Slab.dim)) length, ds.readSlabs length = do
      let values ← (List.range (slabs.map Slab.count).prod).mapM fun i => do
        let e ← ds.byFirst slabs i
        .ok (form ds e)
      .ok (values ++ more ds)) :
    (∀ ds : DataSet t (slabs.map Slab.dim),
      ∃ values, ds.readSlabs (slabs.map Slab.count).prod = .ok values ∧ ds.Holds values) ↔ ByFirst slabs := by
  constructor
  · intro hAll
    obtain ⟨values, hRun, hHolds⟩ := hAll (labelled t _)
    rw [hRead] at hRun
    obtain ⟨found, hFound, hRun⟩ := bind_eq_ok hRun
    obtain rfl := Except.ok.inj hRun
    exact byFirst_of_lookups hSome hInside (hForm _) (fun p q hp hq => labelled_apart ht p q hp hq) hFound hHolds
  · intro hFirst ds
    refine ⟨_, ?_, lookups_hold hInside (more ds)⟩
    rw [hRead, lookups_eq hSome hInside hFirst (hForm ds), ok_bind]

theorem bind_append_nil {α : Type} (x : Except Fault (List α)) : (do
    let values ← x
    .ok (values ++ [])) = x := by
  cases x with
  | error e => rfl
  | ok values => rw [ok_bind, List.append_nil]

theorem follows_iff (hSome : slabs ≠ []) (hInside : ∀ s ∈ slabs, s.Inside)
    (hFits : ((slabs.map Slab.dim).prod : Int) ≤ Core.INT_MAX) :
    (∀ ds : DataSet t (slabs.map Slab.dim),
      ∃ values, ds.readSlabs (slabs.map Slab.count).prod = .ok values ∧ ds.Holds values) ↔ t.Follows slabs := by
  have hNumber (ht : IsNumber t) (hFollows : t.Follows slabs) : (∀ ds : DataSet t (slabs.map Slab.dim),
      ∃ values, ds.readSlabs (slabs.map Slab.count).prod = .ok values ∧ ds.Holds values) ↔ t.Follows slabs :=
    iff_of_true (fun ds => number_holds hInside ht) hFollows
  cases t with
  | compound => exact structure_follows hInside hFits
  | variableString =>
    refine lookups_follow hSome hInside trivial
      (fun ds e => .text (copied (ds.elements.foldl (fun sizeMax e => max sizeMax (strlen e)) 0) e))
      (fun ds => copied_eq) (fun ds => List.replicate (ds.elements.length - (slabs.map Slab.count).prod) (.text []))
      fun ds length => ?_
    rfl
  | objectReference =>
    refine lookups_follow hSome hInside trivial (fun _ e => toValue .objectReference e) (fun _ _ _ => rfl)
      (fun _ => []) fun ds length => ?_
    rw [bind_append_nil]
    rfl
  | regionReference =>
    refine lookups_follow hSome hInside trivial (fun _ e => toValue .regionReference e) (fun _ _ _ => rfl)
      (fun _ => []) fun ds length => ?_
    rw [bind_append_nil]
    rfl
  | int8 =>
    exact ⟨fun hAll => (int8_iff hInside).mp (hAll (labelled _ _)), fun hWhole ds => (int8_iff hInside).mpr hWhole⟩
  | fixedString size h =>
    exact ⟨fun hAll => (fixedString_iff hInside).mp (hAll (labelled _ _)),
      fun hWhole ds => (fixedString_iff hInside).mpr hWhole⟩
  | _ =>
    exact hNumber ⟨⟨by decide, by decide, by decide, rfl⟩, by decide, rfl, rfl, fun _ => rfl, fun _ _ _ => rfl⟩ trivial

/-! ## Constraints -/

theorem slab_inside {d : Dimension} (h : d.Legal) : d.slab.Inside := by
  obtain ⟨hStart, hStop, hSize, hStride⟩ := h
  have hSteps : 0 ≤ (d.stop - d.start) / d.stride := Int.ediv_nonneg (by omega) hStride.le
  have hMost : (d.stop - d.start) / d.stride * d.stride ≤ d.stop - d.start := Int.ediv_mul_le _ hStride.ne'
  refine ⟨by simp only [Dimension.slab]; omega, by simp only [Dimension.slab]; omega, ?_⟩
  have hCast : ((d.slab.offset + (d.slab.count - 1) * d.slab.step : Nat) : Int) < (d.slab.dim : Nat) := by
    have hCount : ((d.slab.count - 1 : Nat) : Int) = (d.stop - d.start) / d.stride := by
      simp only [Dimension.slab]
      omega
    rw [Nat.cast_add, Nat.cast_mul, hCount, Dimension.slab, Int.toNat_of_nonneg hStart, Int.toNat_of_nonneg hStride.le,
      Int.toNat_of_nonneg (by omega)]
    omega
  exact_mod_cast hCast

theorem formatConstraint_ok {dimensions : List Dimension} (hLegal : ∀ d ∈ dimensions, d.Legal)
    (hFits : (((dimensions.map Dimension.slab).map Slab.count).prod : Int) ≤ Core.INT_MAX) :
    formatConstraint dimensions =
      .ok (((dimensions.map Dimension.slab).map Slab.count).prod, dimensions.map Dimension.slab) := by
  have hEach : ∀ d ∈ dimensions, formatDimension d = .ok d.slab := by
    intro d hd
    obtain ⟨hStart, hStop, -, hStride⟩ := hLegal d hd
    exact if_neg (by omega)
  rw [formatConstraint, mapM_ok hEach, ok_bind, int_ok hFits, ok_bind]

/-- The array under a legal constraint holds the elements of its hyperslab. -/
def Right {dimensions : List Dimension} (ds : DataSet t ((dimensions.map Dimension.slab).map Slab.dim)) : Prop :=
  ∃ values, ds.load dimensions = .ok values ∧ ds.Holds values

theorem right_iff {dimensions : List Dimension} (hLegal : ∀ d ∈ dimensions, d.Legal)
    (ds : DataSet t ((dimensions.map Dimension.slab).map Slab.dim)) :
    ds.Right ↔ (((dimensions.map Dimension.slab).map Slab.dim).prod : Int) ≤ Core.INT_MAX ∧ ∃ values,
      ds.readSlabs ((dimensions.map Dimension.slab).map Slab.count).prod = .ok values ∧ ds.Holds values := by
  have hInside : ∀ s ∈ dimensions.map Dimension.slab, s.Inside :=
    List.forall_mem_map.mpr fun d hd => slab_inside (hLegal d hd)
  have hLoad (hFits : (((dimensions.map Dimension.slab).map Slab.dim).prod : Int) ≤ Core.INT_MAX) :
      ds.load dimensions = ds.readSlabs ((dimensions.map Dimension.slab).map Slab.count).prod := by
    have hCounts := counts_fit hInside hFits
    have hMap : (dimensions.map fun d => d.slab.count) = (dimensions.map Dimension.slab).map Slab.count := by
      rw [List.map_map]
      rfl
    rw [load, updateLength, product_ok (dims_pos hInside) (by rwa [Nat.one_mul]), ok_bind, updateLength, hMap,
      product_ok (counts_pos hInside) (by rwa [Nat.one_mul]), ok_bind, Nat.one_mul, read,
      formatConstraint_ok hLegal hCounts]
    rfl
  constructor
  · rintro ⟨values, hRun, hHolds⟩
    have hFits : (((dimensions.map Dimension.slab).map Slab.dim).prod : Int) ≤ Core.INT_MAX := by
      obtain ⟨length, hLength, -⟩ := bind_eq_ok hRun
      have hFits := product_fits (by decide) hLength
      rwa [Nat.one_mul] at hFits
    exact ⟨hFits, values, (hLoad hFits) ▸ hRun, hHolds⟩
  · rintro ⟨hFits, values, hRun, hHolds⟩
    exact ⟨values, (hLoad hFits).trans hRun, hHolds⟩

/-- Reading keeps the row-major order exactly when the path of the data type does, and the list of linear indices is the
row-major one exactly when one dimension at most is wide. -/
theorem read_right_iff (t : DataType) {dimensions : List Dimension} (hSome : dimensions ≠ [])
    (hLegal : ∀ d ∈ dimensions, d.Legal) :
    ((∀ ds : DataSet t ((dimensions.map Dimension.slab).map Slab.dim), ds.Right) ↔
      (((dimensions.map Dimension.slab).map Slab.dim).prod : Int) ≤ Core.INT_MAX ∧
        t.Follows (dimensions.map Dimension.slab)) ∧
    (linearizeMultiDimensions (dimensions.map Dimension.slab) ((dimensions.map Dimension.slab).map Slab.count).prod =
        .ok (((dimensions.map Dimension.slab).map Slab.dim).prod, places (dimensions.map Dimension.slab)) ↔
      (((dimensions.map Dimension.slab).map Slab.dim).prod : Int) ≤ Core.INT_MAX ∧ OneWide (dimensions.map Dimension.slab)) ∧
    ∀ p ∈ places (dimensions.map Dimension.slab), p < ((dimensions.map Dimension.slab).map Slab.dim).prod := by
  have hInside : ∀ s ∈ dimensions.map Dimension.slab, s.Inside :=
    List.forall_mem_map.mpr fun d hd => slab_inside (hLegal d hd)
  have hSlabs : dimensions.map Dimension.slab ≠ [] := mt List.map_eq_nil_iff.mp hSome
  refine ⟨?_, linearize_iff hInside, places_lt hInside⟩
  simp only [right_iff hLegal]
  constructor
  · intro hAll
    obtain ⟨hFits, -⟩ := hAll (labelled t _)
    exact ⟨hFits, (follows_iff hSlabs hInside hFits).mp fun ds => (hAll ds).2⟩
  · rintro ⟨hFits, hFollows⟩ ds
    exact ⟨hFits, (follows_iff hSlabs hInside hFits).mpr hFollows ds⟩

/-- The whole of a dataset with two rows and three columns. -/
def wholeTwoByThree : List Dimension := [⟨2, 0, 1, 1⟩, ⟨3, 0, 1, 2⟩]

/-- Numbers are read right. -/
theorem numbers_right : (labelled .int32 ((wholeTwoByThree.map Dimension.slab).map Slab.dim)).Right :=
  (read_right_iff .int32 (by decide : wholeTwoByThree ≠ []) (by simp [wholeTwoByThree, Dimension.Legal])).1.mpr
    ⟨by decide, trivial⟩ _

/-- Records are read column by column. -/
theorem records_wrong : ¬∀ (t : DataType) (dimensions : List Dimension), dimensions ≠ [] → (∀ d ∈ dimensions, d.Legal) →
    ∀ ds : DataSet t ((dimensions.map Dimension.slab).map Slab.dim), ds.Right := by
  intro hAll
  obtain ⟨values, hRun, hHolds⟩ := hAll .compound wholeTwoByThree (by decide)
      (by simp [wholeTwoByThree, Dimension.Legal])
    (labelled _ _)
  have hValues : (labelled .compound ((wholeTwoByThree.map Dimension.slab).map Slab.dim)).load wholeTwoByThree =
      .ok (["0", "3", "1", "4", "2", "5"].map fun fields => .record fields.toList) := by decide
  obtain rfl := Except.ok.inj (hValues.symm.trans hRun)
  have hSecond := hHolds 1 (.record ['1']) (by decide)
  exact absurd hSecond (by decide)

end DataSet

end Libdap.Hdf5
