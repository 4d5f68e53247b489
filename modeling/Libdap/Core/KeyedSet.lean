import Mathlib.Data.List.Pairwise
import Mathlib.Order.Lattice

/-! # Sets ordered by a key

What `std::set` with a comparison of keys keeps: its elements in the order of their keys, no two of them with the
same key. An element whose key is taken is not inserted.
-/

namespace Libdap.Core
set_option autoImplicit false

variable {α κ : Type} [LinearOrder κ]

/-- The elements with one more at its place, unless its key is taken. -/
def place (key : α → κ) (x : α) : List α → List α
  | [] => [x]
  | y :: ys => if key x < key y then x :: y :: ys else if key y < key x then y :: place key x ys else y :: ys

theorem mem_place {key : α → κ} {s : List α} (hs : s.Pairwise fun a b => key a < key b) (x y : α) :
    y ∈ place key x s ↔ y ∈ s ∨ y = x ∧ ∀ z ∈ s, key z ≠ key x := by
  induction s with
  | nil => simp [place]
  | cons a s ih =>
    obtain ⟨hFirst, hRest⟩ := List.pairwise_cons.mp hs
    rw [place]
    split
    · rename_i hBefore
      have hFree : ∀ z ∈ a :: s, key z ≠ key x := by
        rintro z (_ | ⟨_, hz⟩)
        · exact hBefore.ne'
        · exact (hBefore.trans (hFirst z hz)).ne'
      rw [List.mem_cons, or_comm]
      constructor
      · exact Or.imp_right fun hy => ⟨hy, hFree⟩
      · exact Or.imp_right And.left
    · split
      · rename_i hBehind
        rw [List.mem_cons, ih hRest, List.mem_cons, List.forall_mem_cons, or_assoc]
        constructor
        · exact Or.imp_right (Or.imp_right fun ⟨hy, hAll⟩ => ⟨hy, hBehind.ne, hAll⟩)
        · exact Or.imp_right (Or.imp_right fun ⟨hy, _, hAll⟩ => ⟨hy, hAll⟩)
      · rename_i hNotBefore hNotBehind
        have hSame : key a = key x := le_antisymm (not_lt.mp hNotBefore) (not_lt.mp hNotBehind)
        constructor
        · exact Or.inl
        · rintro (hy | ⟨-, hAll⟩)
          · exact hy
          · exact absurd hSame (hAll a List.mem_cons_self)

/-- The new element is the last when no key is above its own. -/
theorem getLast?_place {key : α → κ} {s : List α} (hs : s.Pairwise fun a b => key a < key b) (x : α) :
    (place key x s).getLast? =
      match s.getLast? with
      | none => some x
      | some y => if key y < key x then some x else some y := by
  induction s with
  | nil => rfl
  | cons a s ih =>
    obtain ⟨hFirst, hRest⟩ := List.pairwise_cons.mp hs
    rw [place]
    cases hLast : s.getLast? with
    | none =>
      obtain rfl := List.getLast?_eq_none_iff.mp hLast
      rw [List.getLast?_singleton]
      dsimp only
      split
      · rename_i hBefore
        rw [if_neg (lt_asymm hBefore)]
        rfl
      · split
        · rfl
        · rfl
    | some y =>
      have hTail : (a :: s).getLast? = some y := by rw [List.getLast?_cons, hLast]; rfl
      have hAbove : key a < key y := hFirst y (List.mem_of_getLast? hLast)
      rw [hLast] at ih
      have hPlaced := ih hRest
      rw [hTail]
      dsimp only at hPlaced ⊢
      split
      · rename_i hBefore
        rw [List.getLast?_cons_cons, hTail, if_neg (lt_asymm (hBefore.trans hAbove))]
      · split
        · rw [List.getLast?_cons, hPlaced]
          split
          · rfl
          · rfl
        · rename_i hNotBefore hNotBehind
          have hSame : key a = key x := le_antisymm (not_lt.mp hNotBefore) (not_lt.mp hNotBehind)
          rw [hTail, if_neg (lt_asymm (hSame ▸ hAbove))]

theorem place_place {key : α → κ} (x : α) (s : List α) : place key x (place key x s) = place key x s := by
  induction s with
  | nil => rw [place, place, if_neg (lt_irrefl _), if_neg (lt_irrefl _)]
  | cons a s ih =>
    rw [place]
    split
    · rw [place, if_neg (lt_irrefl _), if_neg (lt_irrefl _)]
    · rename_i hNotBefore
      split
      · rename_i hBehind
        rw [place, if_neg hNotBefore, if_pos hBehind, ih]
      · rename_i hNotBehind
        rw [place, if_neg hNotBefore, if_neg hNotBehind]

theorem place_ordered {key : α → κ} {s : List α} (hs : s.Pairwise fun a b => key a < key b) (x : α) :
    (place key x s).Pairwise fun a b => key a < key b := by
  induction s with
  | nil => exact List.pairwise_singleton _ x
  | cons a s ih =>
    obtain ⟨hFirst, hRest⟩ := List.pairwise_cons.mp hs
    rw [place]
    split
    · rename_i hBefore
      refine List.pairwise_cons.mpr ⟨?_, hs⟩
      rintro z (_ | ⟨_, hz⟩)
      · exact hBefore
      · exact hBefore.trans (hFirst z hz)
    · split
      · rename_i hBehind
        refine List.pairwise_cons.mpr ⟨?_, ih hRest⟩
        intro z hz
        obtain hz | ⟨rfl, -⟩ := (mem_place hRest x z).mp hz
        · exact hFirst z hz
        · exact hBehind
      · exact hs

structure KeyedSet (key : α → κ) where
  elems : List α
  ordered : elems.Pairwise fun a b => key a < key b

namespace KeyedSet

variable {key : α → κ}

def empty : KeyedSet key := ⟨[], List.Pairwise.nil⟩

def insert (s : KeyedSet key) (x : α) : KeyedSet key := ⟨place key x s.elems, place_ordered s.ordered x⟩

/-- A copy of the elements through an `inserter`. -/
def insertAll (s : KeyedSet key) (xs : List α) : KeyedSet key := xs.foldl insert s

theorem mem_insert {s : KeyedSet key} {x y : α} :
    y ∈ (s.insert x).elems ↔ y ∈ s.elems ∨ y = x ∧ ∀ z ∈ s.elems, key z ≠ key x :=
  mem_place s.ordered x y

theorem eq_of_key_eq (s : KeyedSet key) {x y : α} (hx : x ∈ s.elems) (hy : y ∈ s.elems) (h : key x = key y) :
    x = y := by
  by_contra hNe
  have hSymm : Std.Symm fun a b => key a ≠ key b := ⟨fun _ _ hab => hab.symm⟩
  have hApart : s.elems.Pairwise fun a b => key a ≠ key b := s.ordered.imp fun hab => ne_of_lt hab
  exact hApart.forall hx hy hNe h

/-- What was there stays. -/
theorem mem_insertAll_of_mem (xs : List α) {s : KeyedSet key} {y : α} (h : y ∈ s.elems) :
    y ∈ (s.insertAll xs).elems := by
  induction xs generalizing s with
  | nil => exact h
  | cons x xs ih => exact ih (mem_insert.mpr (.inl h))

/-- What comes in has a key that was free. -/
theorem mem_of_mem_insertAll {xs : List α} {s : KeyedSet key} {y : α} (h : y ∈ (s.insertAll xs).elems) :
    y ∈ s.elems ∨ y ∈ xs ∧ ∀ z ∈ s.elems, key z ≠ key y := by
  induction xs generalizing s with
  | nil => exact .inl h
  | cons x xs ih =>
    obtain hIn | ⟨hIn, hFree⟩ := ih h
    · obtain hOld | ⟨rfl, hFree⟩ := mem_insert.mp hIn
      · exact .inl hOld
      · exact .inr ⟨List.mem_cons_self, hFree⟩
    · exact .inr ⟨List.mem_cons_of_mem x hIn, fun z hz => hFree z (mem_insert.mpr (.inl hz))⟩

/-- Every key that was offered is taken. -/
theorem key_taken {xs : List α} (s : KeyedSet key) {x : α} (h : x ∈ xs) :
    ∃ y ∈ (s.insertAll xs).elems, key y = key x := by
  induction xs generalizing s with
  | nil => cases h
  | cons a xs ih =>
    obtain rfl | hx := List.mem_cons.mp h
    · by_cases hTaken : ∃ z ∈ s.elems, key z = key x
      · obtain ⟨z, hz, hKey⟩ := hTaken
        exact ⟨z, mem_insertAll_of_mem xs (mem_insert.mpr (.inl hz)), hKey⟩
      · have hFree : ∀ z ∈ s.elems, key z ≠ key x := fun z hz hKey => hTaken ⟨z, hz, hKey⟩
        exact ⟨x, mem_insertAll_of_mem xs (mem_insert.mpr (.inr ⟨rfl, hFree⟩)), rfl⟩
    · exact ih (s.insert a) hx

end KeyedSet

end Libdap.Core

/-! ## Maps ordered by their keys

What `std::map` keeps: pairs in the order of their keys, each key once.
-/

namespace Libdap.Core
set_option autoImplicit false

abbrev KeyedMap (κ ν : Type) [LinearOrder κ] : Type := KeyedSet (Prod.fst : κ × ν → κ)

namespace KeyedSet

variable {κ ν : Type} [LinearOrder κ] {m : KeyedMap κ ν} {k k' : κ} {v : ν}

def find (m : KeyedMap κ ν) (k : κ) : Option ν := (m.elems.find? fun e => e.1 = k).map Prod.snd

def erase (m : KeyedMap κ ν) (k : κ) : KeyedMap κ ν := ⟨m.elems.filter fun e => e.1 ≠ k, m.ordered.filter _⟩

/-- The values changed, each at its key. -/
def mapValues (f : κ → ν → ν) (m : KeyedMap κ ν) : KeyedMap κ ν where
  elems := m.elems.map fun e => (e.1, f e.1 e.2)
  ordered := List.pairwise_map.mpr m.ordered

def modify (m : KeyedMap κ ν) (k : κ) (f : ν → ν) : KeyedMap κ ν := m.mapValues fun k' v => if k' = k then f v else v

theorem find_iff : m.find k = some v ↔ (k, v) ∈ m.elems := by
  rw [find, Option.map_eq_some_iff]
  constructor
  · rintro ⟨⟨k', v'⟩, hFind, rfl⟩
    have hKey := List.find?_some hFind
    rw [decide_eq_true_eq] at hKey
    cases hKey
    exact List.mem_of_find?_eq_some hFind
  · intro hMem
    cases hFind : m.elems.find? fun e => e.1 = k with
    | none =>
      rw [List.find?_eq_none] at hFind
      exact absurd (decide_eq_true rfl) (hFind _ hMem)
    | some e =>
      have hKey := List.find?_some hFind
      rw [decide_eq_true_eq] at hKey
      have hSame := m.eq_of_key_eq (List.mem_of_find?_eq_some hFind) hMem hKey
      exact ⟨e, rfl, by rw [hSame]⟩

theorem find_none : m.find k = none ↔ ∀ v, (k, v) ∉ m.elems := by
  rw [Option.eq_none_iff_forall_ne_some]
  exact forall_congr' fun v => not_congr find_iff

@[simp] theorem find_empty : (empty : KeyedMap κ ν).find k = none := rfl

/-- A pair with a new key. -/
theorem find_insert (h : m.find k = none) :
    KeyedSet.find (m.insert (k, v)) k' = if k' = k then some v else m.find k' := by
  have hFree : ∀ z ∈ m.elems, z.1 ≠ k := by
    rintro ⟨_, w⟩ hz rfl
    exact find_none.mp h w hz
  apply Option.ext
  intro w
  rw [find_iff, mem_insert]
  split
  · rename_i hKey
    subst hKey
    rw [Option.some.injEq, ← find_iff, h]
    constructor
    · rintro (hNone | ⟨hPair, -⟩)
      · cases hNone
      · exact (Prod.mk.inj hPair).2.symm
    · rintro rfl
      exact .inr ⟨rfl, hFree⟩
  · rename_i hKey
    rw [find_iff]
    constructor
    · rintro (hMem | ⟨hPair, -⟩)
      · exact hMem
      · exact absurd (Prod.mk.inj hPair).1 hKey
    · exact Or.inl

theorem find_erase : (m.erase k).find k' = if k' = k then none else m.find k' := by
  apply Option.ext
  intro w
  rw [find_iff, erase, List.mem_filter, decide_eq_true_eq]
  split
  · rename_i hKey
    simp [hKey]
  · rename_i hKey
    rw [find_iff, and_iff_left hKey]

/-- `m[k] = v` -/
def set (m : KeyedMap κ ν) (k : κ) (v : ν) : KeyedMap κ ν := KeyedSet.insert (m.erase k) (k, v)

theorem find_set : (m.set k v).find k' = if k' = k then some v else m.find k' := by
  rw [set, find_insert (find_erase.trans (if_pos rfl)), find_erase]
  split <;> rfl

theorem find_mapValues (f : κ → ν → ν) : (m.mapValues f).find k = (m.find k).map (f k) := by
  apply Option.ext
  intro w
  rw [find_iff, mapValues, List.mem_map, Option.map_eq_some_iff]
  constructor
  · rintro ⟨⟨k', v⟩, hMem, hPair⟩
    obtain ⟨rfl, rfl⟩ := Prod.mk.inj hPair
    exact ⟨v, find_iff.mpr hMem, rfl⟩
  · rintro ⟨v, hFind, rfl⟩
    exact ⟨(k, v), find_iff.mp hFind, rfl⟩

theorem find_modify (f : ν → ν) :
    (m.modify k f).find k' = if k' = k then (m.find k).map f else m.find k' := by
  rw [modify, find_mapValues]
  split
  · rename_i hKey
    subst hKey
    rfl
  · cases m.find k' with
    | none => rfl
    | some v => rfl

end KeyedSet

end Libdap.Core
