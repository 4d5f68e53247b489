import Libdap.Constraint.Word
import Libdap.Http.Decimal
import Mathlib.Data.Finset.Card
import Mathlib.Data.List.DropRight

/-! # Unique names

`HDF5CFUtil::gen_unique_name` counts up until a name with the number behind it is not in the set yet.
-/

namespace Libdap.Hdf5
open Core Constraint Http
set_option autoImplicit false

/-- One call after the other of `gen_unique_name`: the name, and the set with it. -/
def genUniqueNameFrom : Nat → Word → List Word → Nat → Word × List Word
  | 0, str, namelist, _ => (str, namelist)
  | fuel + 1, str, namelist, clashIndex =>
    if namelist.contains (str ++ decimal clashIndex) then genUniqueNameFrom fuel str namelist (clashIndex + 1)
    else (str ++ decimal clashIndex, (str ++ decimal clashIndex) :: namelist)

/-- There are not more calls than names in the set, and one. -/
def genUniqueName (str : Word) (namelist : List Word) (clashIndex : Nat) : Word × List Word :=
  genUniqueNameFrom (namelist.length + 1) str namelist clashIndex

theorem decimal_injective : Function.Injective decimal := by
  intro m n h
  rw [← valueOf_decimal m, h, valueOf_decimal]

/-- Of more numbered names than the list is long, one is not in it. -/
theorem exists_unused {α : Type} [DecidableEq α] (used : List α) {name : Nat → α} (hName : Function.Injective name) :
    ∃ i, i ≤ used.length ∧ name i ∉ used := by
  have hCard : used.toFinset.card < ((Finset.range (used.length + 1)).image name).card := by
    rw [Finset.card_image_of_injective _ hName, Finset.card_range]
    exact Nat.lt_succ_of_le used.toFinset_card_le
  obtain ⟨a, hMem, hNot⟩ := Finset.exists_mem_notMem_of_card_lt_card hCard
  obtain ⟨i, hi, rfl⟩ := Finset.mem_image.mp hMem
  exact ⟨i, Nat.lt_succ_iff.mp (Finset.mem_range.mp hi), fun h => hNot (List.mem_toFinset.mpr h)⟩

theorem genUniqueNameFrom_spec {fuel clashIndex : Nat} {str : Word} {namelist : List Word}
    (h : ∃ i, i < fuel ∧ str ++ decimal (clashIndex + i) ∉ namelist) :
    ∃ n, str ++ decimal n ∉ namelist ∧
      genUniqueNameFrom fuel str namelist clashIndex = (str ++ decimal n, (str ++ decimal n) :: namelist) := by
  induction fuel generalizing clashIndex with
  | zero =>
    obtain ⟨i, hi, -⟩ := h
    cases hi
  | succ fuel ih =>
    rw [genUniqueNameFrom]
    split
    · rename_i hUsed
      apply ih
      obtain ⟨i, hi, hFree⟩ := h
      cases i with
      | zero => exact absurd (by simpa using hUsed) hFree
      | succ i => exact ⟨i, by omega, by rwa [Nat.add_assoc, Nat.add_comm 1 i]⟩
    · rename_i hFree
      exact ⟨clashIndex, by simpa using hFree, rfl⟩

/-- The recursion ends with a name that was not in the set. -/
theorem genUniqueName_spec (str : Word) (namelist : List Word) (clashIndex : Nat) :
    ∃ n, str ++ decimal n ∉ namelist ∧
      genUniqueName str namelist clashIndex = (str ++ decimal n, (str ++ decimal n) :: namelist) := by
  apply genUniqueNameFrom_spec
  have hInjective : Function.Injective fun i => str ++ decimal (clashIndex + i) := by
    intro i j h
    exact Nat.add_left_cancel (decimal_injective (List.append_cancel_left h))
  obtain ⟨i, hi, hFree⟩ := exists_unused namelist hInjective
  exact ⟨i, Nat.lt_succ_of_le hi, hFree⟩

end Libdap.Hdf5

/-! ## Strings of a fixed length

The strings of an attribute are read one behind the other, each filled up to the length of the type. `trim_string` takes
the filling away and says how long each string is then; the attribute is cut by these lengths later.
-/

namespace Libdap.Hdf5
open Core Constraint
set_option autoImplicit false

/-- `H5Tget_strpad` -/
inductive StrPad
  | nullTerm
  | nullPad
  | spacePad
  deriving DecidableEq, Repr

def nullChar : Char := Char.ofNat 0

def findFirstOf (c : Char) (s : Word) : Option Nat := s.findIdx? (· = c)

def findLastNotOf (c : Char) (s : Word) : Option Nat := (s.reverse.findIdx? (· ≠ c)).map fun i => s.length - 1 - i

/-- The place behind one that was found; `npos + 1` is 0. -/
def behind : Option Nat → Nat
  | none => 0
  | some i => i + 1

def tempPos (pad : StrPad) (sect : Word) : Option Nat :=
  match pad with
  | .nullTerm => findFirstOf nullChar sect
  | .spacePad => some (behind (findLastNotOf ' ' sect))
  | .nullPad => some (behind (findLastNotOf '0' sect))

/-- What is left of a section, and the size that is noted for it. -/
def trimSection (pad : StrPad) (sectSize : Nat) (sect : Word) : Word × Nat :=
  match tempPos pad sect with
  | some pos =>
    if pad = .spacePad then (if pos = sect.length then sect ++ [' '] else sect.take (pos + 1), pos + 1)
    else (sect.take pos, pos)
  | none =>
    if pad = .spacePad then (sect ++ [nullChar, ' '], sectSize + 1) else (sect, sectSize)

/-- The last section is all that is left. -/
def sectionAt (s : Word) (numSect sectSize i : Nat) : Word :=
  if i ≠ numSect - 1 then (s.drop (i * sectSize)).take sectSize else s.drop ((numSect - 1) * sectSize)

/-- The loop, for so many sections from the `i`th on. -/
def trimSections (pad : StrPad) (s : Word) (numSect sectSize : Nat) : Nat → Nat → Word × List Nat
  | 0, _ => ([], [])
  | k + 1, i =>
    let piece := trimSection pad sectSize (sectionAt s numSect sectSize i)
    let rest := trimSections pad s numSect sectSize k (i + 1)
    (piece.1 ++ rest.1, piece.2 :: rest.2)

/-- `HDF5CFUtil::trim_string` -/
def trimString (pad : StrPad) (s : Word) (numSect sectSize : Nat) : Word × List Nat :=
  trimSections pad s numSect sectSize numSect 0

/-- What an attribute has of a string type. -/
structure StringAttribute where
  value : Word
  strsize : List Nat
  fstrsize : Nat
  deriving DecidableEq, Repr

/-- The part of `Retrieve_H5_Attr_Value` for strings of a fixed length. -/
def retrieveFixedString (pad : StrPad) (tySize : Nat) (bytes : Word) : StringAttribute :=
  let numSect := if bytes.length % tySize = 0 then bytes.length / tySize else bytes.length / tySize + 1
  let trimmed := trimString pad bytes numSect tySize
  ⟨trimmed.1, trimmed.2, tySize⟩

/-! ## The strings -/

/-- What is read of an attribute: one string or more, of one length. -/
structure FixedStrings where
  size : Nat
  sections : List Word
  size_pos : 0 < size
  sections_ne : sections ≠ []
  sections_size : ∀ s ∈ sections, s.length = size

def FixedStrings.bytes (a : FixedStrings) : Word := a.sections.flatten

/-- A string without its filling. Of the blanks, one is left. -/
def unpadded : StrPad → Word → Word
  | .nullTerm, s => s.takeWhile (· ≠ nullChar)
  | .nullPad, s => s.rdropWhile (· = nullChar)
  | .spacePad, s => s.rdropWhile (· = ' ') ++ [' ']

/-- What `trim_string` leaves of it. For null characters it looks for the digit. -/
def leftOf : StrPad → Word → Word
  | .nullTerm, s => unpadded .nullTerm s
  | .nullPad, s => s.rdropWhile (· = '0')
  | .spacePad, s => unpadded .spacePad s

theorem behind_findLastNotOf (c : Char) (s : Word) : behind (findLastNotOf c s) = (s.rdropWhile (· = c)).length := by
  induction s using List.reverseRecOn with
  | nil => rfl
  | append_singleton s a ih =>
    rw [findLastNotOf, List.reverse_append, List.reverse_singleton, List.singleton_append, List.findIdx?_cons,
      List.rdropWhile_concat]
    by_cases hFill : a = c
    · have hNot : decide (a ≠ c) = false := by simpa using hFill
      have hIs : decide (a = c) = true := by simpa using hFill
      rw [hNot, hIs, if_neg Bool.false_ne_true, if_pos rfl, ← ih, findLastNotOf]
      cases hFind : s.reverse.findIdx? (· ≠ c) with
      | none => rfl
      | some i =>
        have hBound := (List.findIdx?_eq_some_iff_getElem.mp hFind).1
        rw [List.length_reverse] at hBound
        simp only [Option.map_some, behind, List.length_append, List.length_singleton]
        omega
    · have hNot : decide (a ≠ c) = true := by simpa using hFill
      have hIs : decide (a = c) = false := by simpa using hFill
      rw [hNot, hIs, if_pos rfl, if_neg Bool.false_ne_true]
      simp [behind]

/-- What was stripped from the end. -/
theorem rdropWhile_append_replicate (c : Char) (s : Word) :
    s.rdropWhile (· = c) ++ List.replicate (s.length - (s.rdropWhile (· = c)).length) c = s := by
  induction s using List.reverseRecOn with
  | nil => rfl
  | append_singleton s a ih =>
    have hLength := (List.rdropWhile_prefix (p := fun x => decide (x = c)) (l := s)).length_le
    rw [List.rdropWhile_concat]
    by_cases hFill : a = c
    · subst hFill
      rw [if_pos (decide_eq_true rfl), List.length_append, List.length_singleton, Nat.succ_sub hLength,
        List.replicate_succ', ← List.append_assoc, ih]
    · rw [if_neg (by simpa using hFill), Nat.sub_self, List.replicate_zero, List.append_nil]

theorem take_rdropWhile (c : Char) (s : Word) : s.take (s.rdropWhile (· = c)).length = s.rdropWhile (· = c) := by
  have hWhole := rdropWhile_append_replicate c s
  generalize s.rdropWhile (· = c) = t at hWhole ⊢
  rw [← hWhole, List.take_left]

/-- One blank more is taken, or there was none. -/
theorem take_blank (s : Word) : (if (s.rdropWhile (· = ' ')).length = s.length then s ++ [' ']
    else s.take ((s.rdropWhile (· = ' ')).length + 1)) = s.rdropWhile (· = ' ') ++ [' '] := by
  have hWhole := rdropWhile_append_replicate ' ' s
  have hLength := (List.rdropWhile_prefix (p := fun x => decide (x = ' ')) (l := s)).length_le
  generalize s.rdropWhile (· = ' ') = t at hWhole hLength ⊢
  split
  · rename_i hNone
    rw [hNone, Nat.sub_self, List.replicate_zero, List.append_nil] at hWhole
    rw [hWhole]
  · rename_i hSome
    obtain ⟨k, hk⟩ := Nat.exists_eq_succ_of_ne_zero (Nat.sub_ne_zero_of_lt (Nat.lt_of_le_of_ne hLength hSome))
    rw [hk, List.replicate_succ] at hWhole
    rw [← hWhole, ← List.singleton_append, ← List.append_assoc, List.take_left']
    rw [List.length_append, List.length_singleton]

theorem findFirstOf_getD (c : Char) (s : Word) : (findFirstOf c s).getD s.length = (s.takeWhile (· ≠ c)).length := by
  induction s with
  | nil => rfl
  | cons a s ih =>
    rw [findFirstOf, List.findIdx?_cons, List.takeWhile_cons]
    by_cases hFound : a = c
    · simp [hFound]
    · rw [if_neg (by simpa using hFound), if_pos (by simpa using hFound), List.length_cons, List.length_cons, ← ih,
        findFirstOf]
      cases s.findIdx? (· = c) <;> rfl

theorem trimSection_eq {pad : StrPad} {n : Nat} {sect : Word} (hLength : sect.length = n) :
    trimSection pad n sect = (leftOf pad sect, (leftOf pad sect).length) := by
  cases pad with
  | nullTerm =>
    rw [trimSection, tempPos, findFirstOf]
    have hCount := findFirstOf_getD nullChar sect
    have hTake := (List.prefix_iff_eq_take.mp (List.takeWhile_prefix (l := sect) (· ≠ nullChar))).symm
    rw [← hCount, findFirstOf] at hTake
    rw [leftOf, unpadded, ← hCount, findFirstOf]
    cases hFind : sect.findIdx? (· = nullChar) with
    | none =>
      rw [hFind, Option.getD_none, List.take_length] at hTake
      simp only [reduceCtorEq, if_false, Option.getD_none, ← hTake, hLength]
    | some i =>
      rw [hFind, Option.getD_some] at hTake
      simp only [reduceCtorEq, if_false, Option.getD_some, hTake]
  | nullPad =>
    rw [trimSection, tempPos, behind_findLastNotOf]
    simp only [reduceCtorEq, if_false, leftOf, take_rdropWhile]
  | spacePad =>
    rw [trimSection, tempPos, behind_findLastNotOf]
    simp only [if_true, take_blank, leftOf, unpadded, List.length_append, List.length_singleton]

/-! ## The sections -/

theorem drop_sections {n : Nat} {sections : List Word} (h : ∀ s ∈ sections, s.length = n) (i : Nat) :
    sections.flatten.drop (i * n) = (sections.drop i).flatten := by
  induction sections generalizing i with
  | nil => simp
  | cons s sections ih =>
    cases i with
    | zero => simp
    | succ i =>
      have hHead := h s List.mem_cons_self
      rw [List.flatten_cons, List.drop_succ_cons, ← ih (fun t ht => h t (List.mem_cons_of_mem s ht)) i, Nat.succ_mul,
        Nat.add_comm, ← List.drop_drop, List.drop_left' hHead]

theorem sectionAt_eq {n i : Nat} {sections : List Word} {sect : Word} {behind : List Word}
    (h : ∀ s ∈ sections, s.length = n) (hAt : sections.drop i = sect :: behind) :
    sectionAt sections.flatten sections.length n i = sect := by
  have hLength : sections.length - i = behind.length + 1 := by
    rw [← List.length_drop, hAt, List.length_cons]
  have hSect : sect.length = n := h sect (List.mem_of_mem_drop (hAt ▸ List.mem_cons_self))
  rw [sectionAt]
  split
  · rw [drop_sections h, hAt, List.flatten_cons, List.take_left' hSect]
  · rename_i hLast
    have hNone : behind = [] := List.length_eq_zero_iff.mp (by omega)
    rw [← not_not.mp hLast, drop_sections h, hAt, hNone, List.flatten_singleton]

theorem trimSections_eq (pad : StrPad) {n : Nat} {sections : List Word} (h : ∀ s ∈ sections, s.length = n) (k i : Nat)
    (hk : (sections.drop i).length = k) : trimSections pad sections.flatten sections.length n k i =
      (((sections.drop i).map (leftOf pad)).flatten, (sections.drop i).map fun s => (leftOf pad s).length) := by
  induction k generalizing i with
  | zero =>
    rw [List.length_eq_zero_iff.mp hk]
    rfl
  | succ k ih =>
    obtain ⟨sect, behind, hAt⟩ := List.exists_cons_of_length_eq_add_one hk
    have hNext : sections.drop (i + 1) = behind := by
      rw [← List.drop_drop, hAt, List.drop_one, List.tail_cons]
    have hSect : sect.length = n := h sect (List.mem_of_mem_drop (hAt ▸ List.mem_cons_self))
    have hRest := ih (i + 1) (by rw [hNext]; rw [hAt, List.length_cons] at hk; omega)
    rw [hNext] at hRest
    rw [trimSections, sectionAt_eq h hAt, trimSection_eq hSect, hRest, hAt]
    rfl

theorem trimString_eq (pad : StrPad) (a : FixedStrings) : trimString pad a.bytes a.sections.length a.size =
    ((a.sections.map (leftOf pad)).flatten, a.sections.map fun s => (leftOf pad s).length) := by
  have hAll := trimSections_eq pad a.sections_size a.sections.length 0 rfl
  exact hAll

theorem length_sections {n : Nat} {sections : List Word} (h : ∀ s ∈ sections, s.length = n) :
    sections.flatten.length = n * sections.length := by
  induction sections with
  | nil => rfl
  | cons s sections ih =>
    rw [List.flatten_cons, List.length_append, ih fun t ht => h t (List.mem_cons_of_mem s ht), h s List.mem_cons_self,
      List.length_cons, Nat.mul_succ, Nat.add_comm]

/-- There are as many sections as strings. -/
theorem retrieveFixedString_eq (pad : StrPad) (a : FixedStrings) : retrieveFixedString pad a.size a.bytes =
    ⟨(a.sections.map (leftOf pad)).flatten, a.sections.map fun s => (leftOf pad s).length, a.size⟩ := by
  have hLength : a.bytes.length = a.size * a.sections.length := length_sections a.sections_size
  rw [retrieveFixedString, hLength, Nat.mul_mod_right, Nat.mul_div_cancel_left _ a.size_pos, if_pos rfl, trimString_eq]

/-! ## What is left -/

/-- The joined value is that of the strings without their filling, and the sizes are theirs. -/
def Trimmed (pad : StrPad) (a : FixedStrings) : Prop :=
  retrieveFixedString pad a.size a.bytes =
    ⟨(a.sections.map (unpadded pad)).flatten, (a.sections.map (unpadded pad)).map List.length, a.size⟩

theorem rdropWhile_length_lt {c : Char} {s : Word} (h : s.getLast? = some c) :
    (s.rdropWhile (· = c)).length < s.length := by
  obtain ⟨t, rfl⟩ := List.getLast?_eq_some_iff.mp h
  rw [List.rdropWhile_concat, if_pos (decide_eq_true rfl), List.length_append, List.length_singleton]
  exact Nat.lt_succ_of_le (List.rdropWhile_prefix _ _).length_le

theorem rdropWhile_self {c : Char} {s : Word} (h : s.getLast? ≠ some c) : s.rdropWhile (· = c) = s := by
  rcases List.eq_nil_or_concat s with rfl | ⟨t, d, rfl⟩
  · rfl
  · have hOther : d ≠ c := by
      rintro rfl
      exact h (by simp)
    rw [List.concat_eq_append, List.rdropWhile_concat, if_neg (by simpa using hOther)]

/-- The two strip the same if and only if the string ends in neither. -/
theorem rdropWhile_length_iff {c d : Char} (hOther : c ≠ d) (s : Word) :
    (s.rdropWhile (· = c)).length = (s.rdropWhile (· = d)).length ↔ s.getLast? ≠ some c ∧ s.getLast? ≠ some d := by
  constructor
  · intro hSame
    constructor
    · intro hLast
      have hLess := rdropWhile_length_lt hLast
      have hWhole := rdropWhile_self (c := d) (s := s) (by rw [hLast]; exact fun h => hOther (Option.some.inj h))
      rw [hSame, hWhole] at hLess
      exact Nat.lt_irrefl _ hLess
    · intro hLast
      have hLess := rdropWhile_length_lt hLast
      have hWhole := rdropWhile_self (c := c) (s := s) (by rw [hLast]; exact fun h => hOther (Option.some.inj h).symm)
      rw [← hSame, hWhole] at hLess
      exact Nat.lt_irrefl _ hLess
  · rintro ⟨hFirst, hSecond⟩
    rw [rdropWhile_self hFirst, rdropWhile_self hSecond]

theorem trimmed_iff (pad : StrPad) (a : FixedStrings) : Trimmed pad a ↔
    (pad = .nullPad → ∀ s ∈ a.sections, s.getLast? ≠ some nullChar ∧ s.getLast? ≠ some '0') := by
  rw [Trimmed, retrieveFixedString_eq]
  cases pad with
  | nullTerm => exact iff_of_true (by rw [List.map_map]; rfl) (fun h => absurd h (by decide))
  | spacePad => exact iff_of_true (by rw [List.map_map]; rfl) (fun h => absurd h (by decide))
  | nullPad =>
    have hOther : nullChar ≠ '0' := by decide
    constructor
    · intro hEq _ s hs
      have hSizes := congrArg StringAttribute.strsize hEq
      dsimp only at hSizes
      rw [List.map_map] at hSizes
      exact (rdropWhile_length_iff hOther s).mp (List.map_eq_map_iff.mp hSizes s hs).symm
    · intro hEnds
      have hSame : a.sections.map (leftOf .nullPad) = a.sections.map (unpadded .nullPad) := by
        apply List.map_congr_left
        intro s hs
        obtain ⟨hNull, hDigit⟩ := hEnds rfl s hs
        rw [leftOf, unpadded, rdropWhile_self hNull, rdropWhile_self hDigit]
      have hSizes : (a.sections.map fun s => (leftOf .nullPad s).length) =
          (a.sections.map (unpadded .nullPad)).map List.length := by
        rw [← hSame, List.map_map]
        rfl
      rw [hSame, hSizes]

/-! ## A number -/

/-- "100", which fills its type. -/
def hundred : FixedStrings where
  size := 3
  sections := [['1', '0', '0']]
  size_pos := by decide
  sections_ne := by decide
  sections_size s hs := by
    rw [List.mem_singleton.mp hs]
    rfl

theorem hundred_not_trimmed : ¬ ∀ (pad : StrPad) (a : FixedStrings), Trimmed pad a := by
  intro hAll
  have hTrimmed := hAll .nullPad hundred
  exact absurd hTrimmed (by unfold Trimmed; decide)

/-! ## The strings that are cut out again -/

/-- `gen_dap_str_attr`: the strings that are not empty, one behind the other. -/
def cutStrings : Word → List Nat → List Word
  | _, [] => []
  | value, size :: sizes =>
    if size ≠ 0 then value.take size :: cutStrings (value.drop size) sizes else cutStrings value sizes

theorem cutStrings_flatten (pieces : List Word) :
    cutStrings pieces.flatten (pieces.map List.length) = pieces.filter fun s => !s.isEmpty := by
  induction pieces with
  | nil => rfl
  | cons s pieces ih =>
    rw [List.map_cons, cutStrings, List.flatten_cons, List.take_left, List.drop_left, ih, List.filter_cons]
    cases s with
    | nil => exact ih
    | cons c s => rfl

/-- The strings of the attribute are the ones that `trim_string` left. -/
theorem cut_retrieved (pad : StrPad) (a : FixedStrings) :
    cutStrings (retrieveFixedString pad a.size a.bytes).value (retrieveFixedString pad a.size a.bytes).strsize =
      (a.sections.map (leftOf pad)).filter fun s => !s.isEmpty := by
  rw [retrieveFixedString_eq, ← cutStrings_flatten, List.map_map]
  rfl

end Libdap.Hdf5
