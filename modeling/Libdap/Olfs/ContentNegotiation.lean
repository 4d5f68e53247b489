import Libdap.Olfs.MediaType
import Mathlib.Algebra.Order.BigOperators.Group.List

/-! # What a header accepts

The header `Accept` gives each media type the quality of the most specific range that covers it. The responder found is
right, whichever responders there are, when each range is read as it is written and ranges that leave the subtype open
are no better or worse than the one that leaves all open.
-/

namespace Libdap.Olfs
open Core Constraint
set_option autoImplicit false

def isTokenChar (c : Char) : Bool := 32 < c.toNat && c.toNat < 127 && !"()<>@,;:\\\"/[]?=\x7b\x7d".toList.contains c

def IsToken (w : Word) : Prop := w ≠ [] ∧ ∀ c ∈ w, isTokenChar c = true

def IsBlank (w : Word) : Prop := ∀ c ∈ w, c = ' ' ∨ c = '\t'

/-- A token or a quoted string. -/
def IsValue (w : Word) : Prop := IsToken w ∨ ∃ text, w = '"' :: (text ++ ['"'])

/-- Up to three digits behind the point, and none of them above zero behind `1.` -/
def IsQuality (w : Word) : Prop :=
  ∃ whole fraction, (w = [whole] ∧ fraction = [] ∨ w = whole :: '.' :: fraction) ∧ fraction.length ≤ 3 ∧
    (whole = '0' ∧ (∀ c ∈ fraction, c.isDigit = true) ∨ whole = '1' ∧ ∀ c ∈ fraction, c = '0')

/-- The number a text of digits and a point stands for. -/
def decimalValue (w : Word) : ℚ := (valueOf 10 (w.filter Char.isDigit) : ℚ) / 10 ^
    ((w.dropWhile (· ≠ '.')).drop 1).length

/-- `; name` or `; name=value` -/
structure Parameter where
  before : Word
  after : Word
  name : Word
  value : Option Word
  hBefore : IsBlank before
  hAfter : IsBlank after
  hName : IsToken name
  hValue : ∀ w ∈ value, IsValue w

def Parameter.text (p : Parameter) : Word :=
  p.before ++ ';' :: (p.after ++ (p.name ++ p.value.elim [] ('=' :: ·)))

/-- `; q=value` -/
structure Quality where
  before : Word
  after : Word
  name : Word
  value : Word
  hBefore : IsBlank before
  hAfter : IsBlank after
  hName : name = ['q'] ∨ name = ['Q']
  hValue : IsQuality value

def Quality.text (q : Quality) : Word := q.before ++ ';' :: (q.after ++ (q.name ++ '=' :: q.value))

/-- One range of the header: the parameters of the media type come before the quality, extensions behind it. -/
structure MediaRange where
  before : Word
  primaryType : Word
  subType : Word
  parameters : List Parameter
  quality : Option Quality
  extensions : List Parameter
  after : Word
  hBefore : IsBlank before
  hPrimary : IsToken primaryType
  hSub : IsToken subType
  hWild : primaryType = ['*'] → subType = ['*']
  hParameters : ∀ p ∈ parameters, equalsIgnoreCase p.name ['q'] = false
  hExtensions : quality = none → extensions = []
  hAfter : IsBlank after

namespace MediaRange

def text (r : MediaRange) : Word :=
  r.before ++ (r.primaryType ++ '/' :: (r.subType ++ (r.parameters.flatMap Parameter.text ++
    (r.quality.elim [] Quality.text ++ (r.extensions.flatMap Parameter.text ++ r.after)))))

def value (r : MediaRange) : ℚ := r.quality.elim 1 fun q => decimalValue q.value

/-- The media types of the responders have no parameters, so that no range with parameters covers them. -/
def exactly (t : Responder) (r : MediaRange) : Bool :=
  r.parameters.isEmpty && equalsIgnoreCase r.primaryType t.primaryType && equalsIgnoreCase r.subType t.subType

def anySubType (primaryType : Word) (r : MediaRange) : Bool :=
  r.parameters.isEmpty && equalsIgnoreCase r.primaryType primaryType && r.subType = ['*']

def anyType (r : MediaRange) : Bool := r.parameters.isEmpty && r.primaryType = ['*'] && r.subType = ['*']

end MediaRange

abbrev Accept := List MediaRange

namespace Accept

def text (h : Accept) : Word := [','].intercalate (h.map MediaRange.text)

/-- The highest quality of the ranges that pass, or zero. -/
def best (p : MediaRange → Bool) (h : Accept) : ℚ := ((h.filter p).map MediaRange.value).foldr max 0

/-- The quality of the most specific range that covers the type. -/
def qualityFor (h : Accept) (t : Responder) : ℚ :=
  if h.any (MediaRange.exactly t) then best (MediaRange.exactly t) h
  else if h.any (MediaRange.anySubType t.primaryType) then best (MediaRange.anySubType t.primaryType) h
  else best MediaRange.anyType h

end Accept

def IsName (w : Word) : Prop := IsToken w ∧ w ≠ ['*']

namespace Dap4Responder

def responders (d : Dap4Responder) : List Responder := d.this :: d.altResponders

/-- Media types of their own, all distinct. -/
structure Distinct (d : Dap4Responder) : Prop where
  names : ∀ r ∈ d.responders, IsName r.primaryType ∧ IsName r.subType
  apart : d.responders.Pairwise fun a b =>
    ¬(equalsIgnoreCase a.primaryType b.primaryType = true ∧ equalsIgnoreCase a.subType b.subType = true)

/-- None is found where none is acceptable, and otherwise one of the highest quality. -/
def FindsBest (d : Dap4Responder) (h : Accept) : Prop :=
  ∃ answer, d.getBestResponderForHttpRequest (some h.text) = .ok answer ∧
    (answer = none ↔ ∀ r ∈ d.responders, h.qualityFor r = 0) ∧
    ∀ r ∈ answer, r ∈ d.responders ∧ ∀ r' ∈ d.responders, h.qualityFor r' ≤ h.qualityFor r

end Dap4Responder

/-- The range is read with its type and its quality, and has no parameters that are not read. -/
structure ReadAs (r : MediaRange) (mt : MediaType) : Prop where
  mimeType : mt.mimeType = r.primaryType ++ '/' :: r.subType
  primaryType : mt.primaryType = r.primaryType
  subType : mt.subType = r.subType
  quality : mt.quality = r.value
  parameters : r.parameters = []

namespace Accept

/-- What is read is what is written. -/
def Read (h : Accept) : Prop :=
  ∃ types, (split ',' h.text).mapM MediaType.ofText = .ok types ∧ (h = [] ∨ List.Forall₂ ReadAs h types)

/-- Ranges that leave the subtype open are as good as those that leave all open, and no others are worse. -/
structure Ranked (h : Accept) : Prop where
  anySubType : ∀ r ∈ h, r.subType = ['*'] → r.primaryType ≠ ['*'] →
    best (MediaRange.anySubType r.primaryType) h = best MediaRange.anyType h
  exactly : ∀ r ∈ h, r.subType ≠ ['*'] →
    best MediaRange.anyType h ≤ best (MediaRange.exactly ⟨r.primaryType, r.subType⟩) h

end Accept

/-! ## Names -/

theorem toLower_eq {b c : Char} (hb : b.toNat < 97) (h : c.toLower = b) : c = b := by
  delta Char.toLower at h
  split at h
  next hUpper =>
    have hVal := congrArg Char.toNat h
    simp only [UInt32.le_iff_toNat_le, ge_iff_le] at hUpper
    change (c.val + ('a'.val - 'A'.val)).toNat = b.toNat at hVal
    simp at hUpper hVal
    omega
  next => exact h

theorem equalsIgnoreCase_refl (w : Word) : equalsIgnoreCase w w = true := decide_eq_true rfl

theorem equalsIgnoreCase_symm {v w : Word} (h : equalsIgnoreCase v w = true) : equalsIgnoreCase w v = true :=
  decide_eq_true (of_decide_eq_true h).symm

theorem equalsIgnoreCase_trans {u v w : Word} (h : equalsIgnoreCase u v = true) (h' : equalsIgnoreCase v w = true) :
    equalsIgnoreCase u w = true :=
  decide_eq_true ((of_decide_eq_true h).trans (of_decide_eq_true h'))

theorem equalsIgnoreCase_star (w : Word) : equalsIgnoreCase w ['*'] = decide (w = ['*']) := by
  refine decide_eq_decide.mpr ⟨fun h => ?_, fun h => by rw [h]⟩
  rw [List.map_singleton, List.map_eq_singleton_iff] at h
  obtain ⟨c, rfl, hc⟩ := h
  rw [toLower_eq (b := '*') (by decide) hc]

theorem slash_not_mem {w : Word} (h : IsToken w) : '/' ∉ w := fun hMem => absurd (h.2 _ hMem) (by decide)

theorem slash_not_mem_map {w : Word} (h : '/' ∉ w) : '/' ∉ w.map Char.toLower := by
  intro hMem
  obtain ⟨c, hc, hLower⟩ := List.mem_map.mp hMem
  rw [toLower_eq (b := '/') (by decide) hLower] at hc
  exact h hc

/-- A text is parted at the first place of a character in one way. -/
theorem parted_inj {c : Char} {a a' b b' : Word} (ha : c ∉ a) (ha' : c ∉ a') :
    a ++ c :: b = a' ++ c :: b' ↔ a = a' ∧ b = b' := by
  induction a generalizing a' with
  | nil =>
    cases a' with
    | nil => simp
    | cons d a' =>
      rw [List.mem_cons, not_or] at ha'
      exact iff_of_false (fun hEq => ha'.1 (List.cons.inj hEq).1) nofun
  | cons d a ih =>
    rw [List.mem_cons, not_or] at ha
    cases a' with
    | nil => exact iff_of_false (fun hEq => ha.1 (List.cons.inj hEq).1.symm) nofun
    | cons e a' =>
      rw [List.mem_cons, not_or] at ha'
      rw [List.cons_append, List.cons_append, List.cons.injEq, ih ha.2 ha'.2, List.cons.injEq, and_assoc]

/-- The whole types are the same when their parts are. -/
theorem equalsIgnoreCase_type {p p' s s' : Word} (hp : '/' ∉ p) (hp' : '/' ∉ p') :
    equalsIgnoreCase (p ++ '/' :: s) (p' ++ '/' :: s') = (equalsIgnoreCase p p' && equalsIgnoreCase s s') := by
  rw [equalsIgnoreCase, List.map_append, List.map_append, List.map_cons, List.map_cons, equalsIgnoreCase,
    equalsIgnoreCase, ← Bool.decide_and]
  refine decide_eq_decide.mpr ?_
  exact parted_inj (slash_not_mem_map hp) (slash_not_mem_map hp')

/-- A type alone is no whole type. -/
theorem equalsIgnoreCase_part {p p' s' : Word} (hp : '/' ∉ p) : equalsIgnoreCase p (p' ++ '/' :: s') = false := by
  refine decide_eq_false fun h => slash_not_mem_map hp ?_
  rw [h, List.map_append, List.map_cons]
  exact List.mem_append_right _ List.mem_cons_self

/-! ## The highest quality -/

namespace Accept
variable {h : Accept} {p : MediaRange → Bool} {r : MediaRange}

theorem best_nonneg (p : MediaRange → Bool) (h : Accept) : 0 ≤ best p h := by
  rw [best]
  induction (h.filter p).map MediaRange.value with
  | nil => exact le_refl 0
  | cons q qs ih => exact le_max_of_le_right ih

theorem le_best (hr : r ∈ h) (hp : p r = true) : r.value ≤ best p h := by
  have hMem : r.value ∈ (h.filter p).map MediaRange.value :=
    List.mem_map_of_mem (List.mem_filter.mpr ⟨hr, hp⟩)
  rw [best]
  generalize (h.filter p).map MediaRange.value = qs at hMem
  induction qs with
  | nil => cases hMem
  | cons q qs ih =>
    rcases List.mem_cons.mp hMem with hEq | hMem
    · exact hEq ▸ le_max_left _ _
    · exact le_max_of_le_right (ih hMem)

theorem best_attained (p : MediaRange → Bool) (h : Accept) :
    best p h = 0 ∨ ∃ r ∈ h, p r = true ∧ r.value = best p h := by
  have hAll : ∀ qs : List ℚ, qs.foldr max 0 = 0 ∨ qs.foldr max 0 ∈ qs := by
    intro qs
    induction qs with
    | nil => exact .inl rfl
    | cons q qs ih =>
      rw [List.foldr_cons]
      rcases le_total q (qs.foldr max 0) with hLess | hLess
      · rw [max_eq_right hLess]
        exact ih.imp_right (List.mem_cons_of_mem q)
      · rw [max_eq_left hLess]
        exact .inr List.mem_cons_self
  refine (hAll _).imp_right fun hMem => ?_
  obtain ⟨r, hr, hValue⟩ := List.mem_map.mp hMem
  exact ⟨r, (List.mem_filter.mp hr).1, (List.mem_filter.mp hr).2, hValue⟩

theorem qualityFor_nonneg (h : Accept) (t : Responder) : 0 ≤ h.qualityFor t := by
  rw [qualityFor]
  split
  · exact best_nonneg _ _
  · split
    · exact best_nonneg _ _
    · exact best_nonneg _ _

end Accept

namespace Dap4Responder
variable {d : Dap4Responder} {h : Accept} {r : MediaRange} {mt : MediaType} {t a b : Responder}

/-! ## Ranges that are read as they are written -/

/-- The range names the responder. -/
def Sees (d : Dap4Responder) (r : MediaRange) (t : Responder) : Prop :=
  t ∈ d.altResponders ∧ r.exactly t = true ∨
    t = d.this ∧ (r.exactly t = true ∨ r.anySubType t.primaryType = true ∨ r.anyType = true)

theorem namesAlt_eq (h : ReadAs r mt) (ht : IsName t.primaryType) : namesAlt t mt = r.exactly t := by
  have hSlash := slash_not_mem r.hPrimary
  rw [namesAlt, h.mimeType, h.primaryType, h.subType, Responder.mimeType,
    equalsIgnoreCase_type hSlash (slash_not_mem ht.1), equalsIgnoreCase_part hSlash, MediaRange.exactly, h.parameters,
      Bool.false_and]
  split
  · rename_i hBoth
    rw [List.isEmpty_nil, Bool.true_and, hBoth]
  · rename_i hNot
    rw [List.isEmpty_nil, Bool.true_and, Bool.eq_false_iff.mpr hNot]

theorem namesThis_eq (h : ReadAs r mt) (ht : IsName t.primaryType) :
    namesThis t mt = (r.exactly t || r.anySubType t.primaryType || r.anyType) := by
  rw [namesThis, h.mimeType, h.primaryType, h.subType, Responder.mimeType,
    equalsIgnoreCase_type (slash_not_mem r.hPrimary) (slash_not_mem ht.1), equalsIgnoreCase_star, equalsIgnoreCase_star,
      MediaRange.exactly, MediaRange.anySubType, MediaRange.anyType,
    h.parameters, List.isEmpty_nil, Bool.true_and]
  split
  · rename_i hBoth
    rw [hBoth, Bool.true_or, Bool.true_or]
  · rename_i hNot
    rw [Bool.eq_false_iff.mpr hNot, Bool.false_or]
    split
    · rename_i hSub
      rw [hSub, Bool.true_or]
    · rename_i hNotSub
      rw [Bool.eq_false_iff.mpr hNotSub, Bool.false_or, Bool.true_and]

theorem Distinct.same (hDistinct : d.Distinct) (ha : a ∈ d.responders) (hb : b ∈ d.responders)
    (hPrimary : equalsIgnoreCase a.primaryType b.primaryType = true)
    (hSub : equalsIgnoreCase a.subType b.subType = true) : a = b := by
  by_contra hNe
  have hSymm : Std.Symm fun a b : Responder =>
      ¬(equalsIgnoreCase a.primaryType b.primaryType = true ∧ equalsIgnoreCase a.subType b.subType = true) :=
    ⟨fun _ _ hApart hSame => hApart ⟨equalsIgnoreCase_symm hSame.1, equalsIgnoreCase_symm hSame.2⟩⟩
  exact hDistinct.apart.forall ha hb hNe ⟨hPrimary, hSub⟩

theorem exactly_same (ha : r.exactly a = true) (hb : r.exactly b = true) :
    equalsIgnoreCase a.primaryType b.primaryType = true ∧ equalsIgnoreCase a.subType b.subType = true := by
  rw [MediaRange.exactly, Bool.and_eq_true, Bool.and_eq_true] at ha hb
  exact ⟨equalsIgnoreCase_trans (equalsIgnoreCase_symm ha.1.2) hb.1.2,
    equalsIgnoreCase_trans (equalsIgnoreCase_symm ha.2) hb.2⟩

theorem exactly_sub (ha : r.exactly a = true) (hName : IsName a.subType) : r.subType ≠ ['*'] := by
  rw [MediaRange.exactly, Bool.and_eq_true] at ha
  intro hStar
  have hOther := equalsIgnoreCase_symm ha.2
  rw [hStar, equalsIgnoreCase_star] at hOther
  exact hName.2 (of_decide_eq_true hOther)

/-- The map holds the responder that the range names. -/
theorem assigned_of_header_iff (hDistinct : d.Distinct) (h : ReadAs r mt) : d.assigned mt = some t ↔ d.Sees r t := by
  have hAlts : ∀ a ∈ d.altResponders, namesAlt a mt = r.exactly a := fun a ha =>
    namesAlt_eq h (hDistinct.names a (List.mem_cons_of_mem _ ha)).1
  have hThis := namesThis_eq h (hDistinct.names d.this List.mem_cons_self).1
  rw [assigned, List.filter_congr hAlts, hThis]
  cases hLast : (d.altResponders.filter fun a => r.exactly a).getLast? with
  | some a =>
    obtain ⟨ha, hExact⟩ := List.mem_filter.mp (List.mem_of_getLast? hLast)
    have haAll : a ∈ d.responders := List.mem_cons_of_mem _ ha
    have hSub := exactly_sub hExact (hDistinct.names a haAll).2
    rw [Option.some_or, Option.some.injEq]
    constructor
    · rintro rfl
      exact .inl ⟨ha, hExact⟩
    · rintro (⟨ht, hSees⟩ | ⟨rfl, hSees | hSees | hSees⟩)
      · exact hDistinct.same haAll (List.mem_cons_of_mem _ ht) (exactly_same hExact hSees).1
          (exactly_same hExact hSees).2
      · exact hDistinct.same haAll List.mem_cons_self (exactly_same hExact hSees).1 (exactly_same hExact hSees).2
      · rw [MediaRange.anySubType, Bool.and_eq_true] at hSees
        exact absurd (of_decide_eq_true hSees.2) hSub
      · rw [MediaRange.anyType, Bool.and_eq_true] at hSees
        exact absurd (of_decide_eq_true hSees.2) hSub
  | none =>
    have hNone := List.filter_eq_nil_iff.mp (List.getLast?_eq_none_iff.mp hLast)
    rw [Option.none_or]
    constructor
    · intro hSome
      split at hSome
      · rename_i hNames
        rw [Bool.or_eq_true, Bool.or_eq_true, or_assoc] at hNames
        cases hSome
        exact .inr ⟨rfl, hNames⟩
      · cases hSome
    · rintro (⟨ht, hSees⟩ | ⟨rfl, hSees⟩)
      · exact absurd hSees (hNone t ht)
      · rw [if_pos (by rw [Bool.or_eq_true, Bool.or_eq_true, or_assoc]; exact hSees)]

theorem mem_named (hDistinct : d.Distinct) {types : List MediaType} (h' : List.Forall₂ ReadAs h types) {q : ℚ} :
    (q, t) ∈ d.named types ↔ ∃ r ∈ h, r.value = q ∧ d.Sees r t := by
  induction h' with
  | nil => simp [named]
  | @cons r mt h types hRead _ ih =>
    have hHead := assigned_of_header_iff (t := t) hDistinct hRead
    rw [named, List.filterMap_cons, List.exists_mem_cons_iff, ← ih, ← hHead, ← hRead.quality]
    cases hAssigned : d.assigned mt with
    | none => simp [named]
    | some a =>
      simp only [Option.map_some, List.mem_cons, Prod.mk.injEq, Option.some.injEq, named]
      exact or_congr_left ⟨fun hPair => ⟨hPair.1.symm, hPair.2.symm⟩, fun hPair => ⟨hPair.1.symm, hPair.2.symm⟩⟩

/-! ## Headers that rank the types as they are searched -/

theorem equalsIgnoreCase_congr {v w : Word} (h : equalsIgnoreCase v w = true) (u : Word) :
    equalsIgnoreCase u v = equalsIgnoreCase u w := by
  rw [equalsIgnoreCase, equalsIgnoreCase, of_decide_eq_true h]

theorem exactly_congr (h : r.exactly t = true) :
    MediaRange.exactly t = MediaRange.exactly ⟨r.primaryType, r.subType⟩ := by
  rw [MediaRange.exactly, Bool.and_eq_true, Bool.and_eq_true] at h
  funext r'
  rw [MediaRange.exactly, MediaRange.exactly, equalsIgnoreCase_congr h.1.2, equalsIgnoreCase_congr h.2]

theorem anySubType_congr {p : Word} (h : r.anySubType p = true) :
    MediaRange.anySubType p = MediaRange.anySubType r.primaryType := by
  rw [MediaRange.anySubType, Bool.and_eq_true, Bool.and_eq_true] at h
  funext r'
  rw [MediaRange.anySubType, MediaRange.anySubType, equalsIgnoreCase_congr h.1.2]

theorem anySubType_open {p : Word} (h : r.anySubType p = true) (hp : IsName p) :
    r.subType = ['*'] ∧ r.primaryType ≠ ['*'] := by
  rw [MediaRange.anySubType, Bool.and_eq_true, Bool.and_eq_true] at h
  refine ⟨of_decide_eq_true h.2, fun hStar => ?_⟩
  have hOther := equalsIgnoreCase_symm h.1.2
  rw [hStar, equalsIgnoreCase_star] at hOther
  exact hp.2 (of_decide_eq_true hOther)

theorem sees_exactly (ht : t ∈ d.responders) (h : r.exactly t = true) : d.Sees r t := by
  rcases List.mem_cons.mp ht with rfl | hAlt
  · exact .inr ⟨rfl, .inl h⟩
  · exact .inl ⟨hAlt, h⟩

theorem sees_mem (h : d.Sees r t) : t ∈ d.responders := by
  rcases h with ⟨hAlt, -⟩ | ⟨rfl, -⟩
  · exact List.mem_cons_of_mem _ hAlt
  · exact List.mem_cons_self

open Accept

/-- No type has a better quality than the ranges that name a responder. -/
theorem qualityFor_le (hDistinct : d.Distinct) (hRanked : h.Ranked) {q : ℚ} (hq : 0 ≤ q)
    (hSeen : ∀ r ∈ h, ∀ t, d.Sees r t → r.value ≤ q) (ht : t ∈ d.responders) : h.qualityFor t ≤ q := by
  have hAny : best MediaRange.anyType h ≤ q := by
    rcases best_attained MediaRange.anyType h with hZero | ⟨r, hr, hAny, hValue⟩
    · rwa [hZero]
    · rw [← hValue]
      exact hSeen r hr d.this (.inr ⟨rfl, .inr (.inr hAny)⟩)
  rw [qualityFor]
  split
  · rcases best_attained (MediaRange.exactly t) h with hZero | ⟨r, hr, hExact, hValue⟩
    · rwa [hZero]
    · rw [← hValue]
      exact hSeen r hr t (sees_exactly ht hExact)
  · split
    · rename_i hOpen
      obtain ⟨r, hr, hSub⟩ := List.any_eq_true.mp hOpen
      obtain ⟨hStar, hNamed⟩ := anySubType_open hSub (hDistinct.names t ht).1
      rw [anySubType_congr hSub, hRanked.anySubType r hr hStar hNamed]
      exact hAny
    · exact hAny

/-- A range that names a responder is no better than the type's quality. -/
theorem le_qualityFor (hDistinct : d.Distinct) (hRanked : h.Ranked) (hr : r ∈ h) (hSees : d.Sees r t) :
    r.value ≤ h.qualityFor t := by
  have hNames := hDistinct.names t (sees_mem hSees)
  have hExact (hAny : h.any (MediaRange.exactly t) = true) :
      best MediaRange.anyType h ≤ best (MediaRange.exactly t) h := by
    obtain ⟨r', hr', hExact⟩ := List.any_eq_true.mp hAny
    rw [exactly_congr hExact]
    exact hRanked.exactly r' hr' (exactly_sub hExact hNames.2)
  have hOpen {r' : MediaRange} (hr' : r' ∈ h) (hSub : r'.anySubType t.primaryType = true) :
      best (MediaRange.anySubType t.primaryType) h = best MediaRange.anyType h := by
    obtain ⟨hStar, hNamed⟩ := anySubType_open hSub hNames.1
    rw [anySubType_congr hSub]
    exact hRanked.anySubType r' hr' hStar hNamed
  have hCases : r.exactly t = true ∨ r.anySubType t.primaryType = true ∨ r.anyType = true := by
    rcases hSees with ⟨-, hSees⟩ | ⟨-, hSees⟩
    · exact .inl hSees
    · exact hSees
  rw [qualityFor]
  rcases hCases with hSees | hSees | hSees
  · rw [if_pos (List.any_eq_true.mpr ⟨r, hr, hSees⟩)]
    exact le_best hr hSees
  · have hBest := le_best hr hSees
    split
    · rename_i hAny
      exact (hOpen hr hSees ▸ hBest).trans (hExact hAny)
    · rw [if_pos (List.any_eq_true.mpr ⟨r, hr, hSees⟩)]
      exact hBest
  · have hBest := le_best hr hSees
    split
    · rename_i hAny
      exact hBest.trans (hExact hAny)
    · split
      · rename_i hAny
        obtain ⟨r', hr', hSub⟩ := List.any_eq_true.mp hAny
        rw [hOpen hr' hSub]
        exact hBest
      · exact hBest

theorem qualityOf_pos (parts : List Word) : 0 < MediaType.qualityOf parts := by
  rw [MediaType.qualityOf]
  split
  · split
    · split
      · rename_i hRange
        exact hRange.1
      · exact one_pos
    · exact one_pos
  · exact one_pos

theorem ofText_pos {w : Word} (h : MediaType.ofText w = .ok mt) : 0 < mt.quality := by
  rw [MediaType.ofText] at h
  split at h
  · cases h
  · split at h
    · cases h
      exact qualityOf_pos _
    · cases h
      exact qualityOf_pos _

theorem mapM_mem {α β ε : Type} {f : α → Except ε β} {as : List α} {bs : List β} (h : as.mapM f = .ok bs) {b : β}
    (hb : b ∈ bs) : ∃ a ∈ as, f a = .ok b := by
  induction as generalizing bs with
  | nil =>
    cases h
    cases hb
  | cons a as ih =>
    rw [List.mapM_cons] at h
    obtain ⟨b', hHead, h⟩ := bind_eq_ok h
    obtain ⟨bs', hTail, h⟩ := bind_eq_ok h
    cases h
    rcases List.mem_cons.mp hb with rfl | hb
    · exact ⟨a, List.mem_cons_self, hHead⟩
    · obtain ⟨a', ha', hOk⟩ := ih hTail hb
      exact ⟨a', List.mem_cons_of_mem _ ha', hOk⟩

/-- What is read has a quality above zero. -/
theorem value_pos {types : List MediaType} {texts : List Word} (hTypes : texts.mapM MediaType.ofText = .ok types)
    (hRead : List.Forall₂ ReadAs h types) (hr : r ∈ h) : 0 < r.value ∧ r.parameters = [] := by
  have hPos : ∀ mt ∈ types, 0 < mt.quality := by
    intro mt hmt
    obtain ⟨w, -, hw⟩ := mapM_mem hTypes hmt
    exact ofText_pos hw
  clear hTypes
  induction hRead with
  | nil => cases hr
  | cons hHead _ ih =>
    rcases List.mem_cons.mp hr with rfl | hr
    · exact ⟨hHead.quality ▸ hPos _ List.mem_cons_self, hHead.parameters⟩
    · exact ih hr fun mt hmt => hPos mt (List.mem_cons_of_mem _ hmt)

theorem equalsIgnoreCase_length {v w : Word} (h : equalsIgnoreCase v w = true) : v.length = w.length := by
  have hLength := congrArg List.length (of_decide_eq_true h)
  rwa [List.length_map, List.length_map] at hLength

theorem equalsIgnoreCase_nil {w : Word} (hw : w ≠ []) : equalsIgnoreCase [] w = false :=
  Bool.eq_false_iff.mpr fun h => hw (List.length_eq_zero_iff.mp (equalsIgnoreCase_length h).symm)

theorem named_empty (hDistinct : d.Distinct) : d.named [⟨[], [], [], 1⟩] = [] := by
  have hMime (r : Responder) : equalsIgnoreCase [] r.mimeType = false :=
    equalsIgnoreCase_nil (List.append_ne_nil_of_right_ne_nil _ (List.cons_ne_nil _ _))
  have hThis : namesThis d.this ⟨[], [], [], 1⟩ = false := by
    rw [namesThis, hMime, equalsIgnoreCase_nil (hDistinct.names d.this List.mem_cons_self).1.1.1]
    rfl
  have hAlts : ∀ a ∈ d.altResponders, ¬namesAlt a ⟨[], [], [], 1⟩ = true := by
    intro a _
    rw [namesAlt, hMime]
    exact Bool.false_ne_true
  rw [named, List.filterMap_cons, assigned, List.filter_eq_nil_iff.mpr hAlts, hThis]
  rfl

/-- Nothing is accepted. -/
theorem empty_best (hDistinct : d.Distinct) : d.getBestResponderForHttpRequest (some (text [])) = .ok none := by
  have hTypes : (split ',' (text [])).mapM MediaType.ofText = .ok [⟨[], [], [], 1⟩] := rfl
  rw [best_eq hTypes, named_empty hDistinct]
  rfl

theorem findsBest_of_ranked (hDistinct : d.Distinct) (hRead : h.Read) (hRanked : h.Ranked) : d.FindsBest h := by
  obtain ⟨types, hTypes, rfl | hAll⟩ := hRead
  · exact ⟨none, empty_best hDistinct, iff_of_true rfl fun t _ => rfl, nofun⟩
  · have hNamed {q : ℚ} {t : Responder} := mem_named (t := t) (q := q) hDistinct hAll
    refine ⟨_, best_eq hTypes, ?_⟩
    cases hBest : (d.named types).argmax Prod.fst with
    | none =>
      have hNone := List.argmax_eq_none.mp hBest
      refine ⟨iff_of_true rfl fun t ht => le_antisymm ?_ (qualityFor_nonneg h t), nofun⟩
      refine qualityFor_le hDistinct hRanked (le_refl 0) (fun r hr t hSees => ?_) ht
      have hMem := hNamed.mpr ⟨r, hr, rfl, hSees⟩
      rw [hNone] at hMem
      cases hMem
    | some p =>
      obtain ⟨q, t⟩ := p
      obtain ⟨r, hr, hValue, hSees⟩ := hNamed.mp (List.argmax_mem hBest)
      have hFound := le_qualityFor hDistinct hRanked hr hSees
      have hPos : 0 < h.qualityFor t := (value_pos hTypes hAll hr).1.trans_le hFound
      have hMost : ∀ t' ∈ d.responders, h.qualityFor t' ≤ q := fun t' ht' =>
        qualityFor_le hDistinct hRanked (hValue ▸ (value_pos hTypes hAll hr).1.le)
          (fun r' hr' t'' hSees' => List.le_of_mem_argmax (hNamed.mpr ⟨r', hr', rfl, hSees'⟩) hBest) ht'
      rw [Option.map_some]
      refine ⟨iff_of_false nofun fun hZero => hPos.ne' (hZero t (sees_mem hSees)), fun t' ht' => ?_⟩
      obtain rfl := Option.some.inj ht'
      exact ⟨sees_mem hSees, fun t' ht' => (hMost t' ht').trans (hValue ▸ hFound)⟩

/-! ## Headers that do not -/

/-- A name that no range has. -/
theorem exists_fresh (h : Accept) : ∃ w, IsName w ∧
    ∀ r ∈ h, equalsIgnoreCase r.primaryType w = false ∧ equalsIgnoreCase r.subType w = false := by
  refine ⟨List.replicate ((h.map fun r => r.primaryType.length + r.subType.length).sum + 1) 'x', ⟨⟨?_, ?_⟩, ?_⟩, ?_⟩
  · exact List.cons_ne_nil _ _
  · intro c hc
    rw [List.eq_of_mem_replicate hc]
    decide
  · intro hStar
    exact absurd (List.cons.inj hStar).1 (by decide)
  · intro r hr
    have hLess : r.primaryType.length + r.subType.length ≤
        (h.map fun r => r.primaryType.length + r.subType.length).sum := List.le_sum_of_mem (List.mem_map_of_mem hr)
    constructor
    · refine Bool.eq_false_iff.mpr fun hSame => ?_
      have hLength := equalsIgnoreCase_length hSame
      rw [List.length_replicate] at hLength
      omega
    · refine Bool.eq_false_iff.mpr fun hSame => ?_
      have hLength := equalsIgnoreCase_length hSame
      rw [List.length_replicate] at hLength
      omega

/-- Where no range has the type of the one alternative, it is no better than the responder that is found. -/
theorem alt_le {n a : Responder} (hRead : h.Read) (hDistinct : Distinct ⟨n, [a]⟩) (hFinds : FindsBest ⟨n, [a]⟩ h)
    (hNot : ∀ r ∈ h, r.exactly a = false) : h.qualityFor a ≤ h.qualityFor n := by
  obtain ⟨types, hTypes, rfl | hAll⟩ := hRead
  · exact le_refl 0
  · obtain ⟨answer, hAnswer, hNone, hSome⟩ := hFinds
    rw [best_eq hTypes] at hAnswer
    have hAnswer := Except.ok.inj hAnswer
    cases hBest : (named ⟨n, [a]⟩ types).argmax Prod.fst with
    | none =>
      rw [hBest] at hAnswer
      rw [hNone.mp hAnswer.symm a (List.mem_cons_of_mem _ List.mem_cons_self)]
      exact qualityFor_nonneg h n
    | some p =>
      obtain ⟨q, t⟩ := p
      obtain ⟨r, hr, -, hSees⟩ := (mem_named hDistinct hAll).mp (List.argmax_mem hBest)
      have ht : t = n := by
        rcases hSees with ⟨hAlt, hExact⟩ | ⟨hThis, -⟩
        · rw [List.mem_singleton.mp hAlt, hNot r hr] at hExact
          cases hExact
        · exact hThis
      subst ht
      rw [hBest] at hAnswer
      exact (hSome t hAnswer.symm).2 a (List.mem_cons_of_mem _ List.mem_cons_self)

theorem distinct_pair {n a : Responder} (hn : IsName n.primaryType ∧ IsName n.subType)
    (ha : IsName a.primaryType ∧ IsName a.subType) (hApart : equalsIgnoreCase n.primaryType a.primaryType = false) :
    Distinct ⟨n, [a]⟩ where
  names := by simpa [responders] using ⟨hn, ha⟩
  apart := by simp [responders, hApart]

theorem ranked_of_finds (hRead : h.Read) (hFinds : ∀ d : Dap4Responder, d.Distinct → d.FindsBest h) : h.Ranked := by
  obtain ⟨f, hf, hFresh⟩ := exists_fresh h
  have hPos : ∀ r ∈ h, 0 < r.value ∧ r.parameters = [] := by
    obtain ⟨types, hTypes, rfl | hAll⟩ := hRead
    · exact nofun
    · exact fun r hr => value_pos hTypes hAll hr
  have hNotExactly (p : Word) : ∀ r ∈ h, r.exactly ⟨p, f⟩ = false := by
    intro r hr
    rw [MediaRange.exactly, (hFresh r hr).2, Bool.and_false]
  have hNotSub : ∀ r ∈ h, r.anySubType f = false := by
    intro r hr
    rw [MediaRange.anySubType, (hFresh r hr).1, Bool.and_false, Bool.false_and]
  have hNone {p : MediaRange → Bool} (hp : ∀ r ∈ h, p r = false) : ¬h.any p = true := by
    intro hAny
    obtain ⟨r, hr, hTrue⟩ := List.any_eq_true.mp hAny
    rw [hp r hr] at hTrue
    cases hTrue
  have hFreshQuality : h.qualityFor ⟨f, f⟩ = best MediaRange.anyType h := by
    rw [qualityFor, if_neg (hNone (hNotExactly f)), if_neg (hNone hNotSub)]
  constructor
  · intro r hr hStar hNamed
    have hp : IsName r.primaryType := ⟨r.hPrimary, hNamed⟩
    have hSees : r.anySubType r.primaryType = true := by
      rw [MediaRange.anySubType, (hPos r hr).2, equalsIgnoreCase_refl, hStar]
      rfl
    have hQuality : h.qualityFor ⟨r.primaryType, f⟩ = best (MediaRange.anySubType r.primaryType) h := by
      rw [qualityFor, if_neg (hNone (hNotExactly r.primaryType)), if_pos (List.any_eq_true.mpr ⟨r, hr, hSees⟩)]
    have hApart := (hFresh r hr).1
    apply le_antisymm
    · have hApart' : equalsIgnoreCase f r.primaryType = false :=
        Bool.eq_false_iff.mpr fun hSame => by rw [equalsIgnoreCase_symm hSame] at hApart; cases hApart
      have hPair : Distinct ⟨⟨f, f⟩, [⟨r.primaryType, f⟩]⟩ := distinct_pair ⟨hf, hf⟩ ⟨hp, hf⟩ hApart'
      have hLess := alt_le hRead hPair (hFinds _ hPair) (hNotExactly r.primaryType)
      rwa [hQuality, hFreshQuality] at hLess
    · have hPair : Distinct ⟨⟨r.primaryType, f⟩, [⟨f, f⟩]⟩ := distinct_pair ⟨hp, hf⟩ ⟨hf, hf⟩ hApart
      have hLess := alt_le hRead hPair (hFinds _ hPair) (hNotExactly f)
      rwa [hQuality, hFreshQuality] at hLess
  · intro r hr hSub
    have hNamed : r.primaryType ≠ ['*'] := fun hStar => hSub (r.hWild hStar)
    have hSees : r.exactly ⟨r.primaryType, r.subType⟩ = true := by
      rw [MediaRange.exactly, (hPos r hr).2, equalsIgnoreCase_refl, equalsIgnoreCase_refl]
      rfl
    have hPair : Distinct ⟨⟨r.primaryType, r.subType⟩, [⟨f, f⟩]⟩ :=
      distinct_pair ⟨⟨r.hPrimary, hNamed⟩, r.hSub, hSub⟩ ⟨hf, hf⟩ (hFresh r hr).1
    have hQuality : h.qualityFor ⟨r.primaryType, r.subType⟩ =
        best (MediaRange.exactly ⟨r.primaryType, r.subType⟩) h := by
      rw [qualityFor, if_pos (List.any_eq_true.mpr ⟨r, hr, hSees⟩)]
    have hLess := alt_le hRead hPair (hFinds _ hPair) (hNotExactly f)
    rwa [hQuality, hFreshQuality] at hLess

end Dap4Responder

end Libdap.Olfs
