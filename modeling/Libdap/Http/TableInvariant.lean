import Libdap.Http.CacheTable
import Mathlib.Algebra.BigOperators.Group.Finset.Piecewise
import Mathlib.Algebra.Order.BigOperators.Group.Finset
import Mathlib.Algebra.Order.BigOperators.Group.List
import Mathlib.Tactic.Ring

/-! # The table over a run -/

namespace Libdap.Http
open Core Constraint HTTPCacheTable
set_option autoImplicit false

def cellSpace (blockSize : Nat) : Cell → Int
  | none => 0
  | some p => entryDiskSpace p.2.size blockSize

def slotSpace (blockSize : Nat) (cells : List Cell) : Int := (cells.map (cellSpace blockSize)).sum

/-- The sum of `entry_disk_space` over the entries. -/
def totalSpace (blockSize : Nat) (slots : Nat → List Cell) : Int :=
  ∑ s ∈ Finset.range CACHE_TABLE_SIZE, slotSpace blockSize (slots s)

/-- The size is that of the entries; no URL is there twice, and each is in its slot. -/
structure Consistent (t : HTTPCacheTable) : Prop where
  size : (t.currentSize : Int) = totalSpace t.blockSize t.slots
  one : ∀ (s i : Nat) (p : Nat × CacheEntry) (s' i' : Nat) (p' : Nat × CacheEntry), (t.slots s)[i]? = some (some p) →
    (t.slots s')[i']? = some (some p') →
    p.2.url = p'.2.url → s = s' ∧ i = i'
  placed : ∀ (s : Nat) (p : Nat × CacheEntry), some p ∈ t.slots s → s = getHash p.2.url

def Apart (c c' : Cell) : Prop := ∀ p p' : Nat × CacheEntry, c = some p → c' = some p' → p.2.url ≠ p'.2.url

/-- What the calls keep. -/
structure Sound (t : HTTPCacheTable) : Prop where
  size : (t.currentSize : Int) = totalSpace t.blockSize t.slots
  apart : ∀ s, (t.slots s).Pairwise Apart
  placed : ∀ (s : Nat) (p : Nat × CacheEntry), some p ∈ t.slots s → s = getHash p.2.url
  space : ∀ (s : Nat) (p : Nat × CacheEntry), some p ∈ t.slots s → 0 ≤ entryDiskSpace p.2.size t.blockSize
  address : ∀ (s s' : Nat) (p p' : Nat × CacheEntry), some p ∈ t.slots s → some p' ∈ t.slots s' → p.1 = p'.1 → p = p'
  fresh : ∀ (s : Nat) (p : Nat × CacheEntry), some p ∈ t.slots s → p.1 < t.nextAddress

theorem Sound.consistent {t : HTTPCacheTable} (h : Sound t) : Consistent t := by
  refine ⟨h.size, ?_, h.placed⟩
  intro s i p s' i' p' hCell hCell' hUrl
  have hSlot := h.placed s p (List.mem_of_getElem? hCell)
  have hSlot' := h.placed s' p' (List.mem_of_getElem? hCell')
  have hSame : s = s' := by rw [hSlot, hSlot', hUrl]
  subst hSame
  refine ⟨rfl, ?_⟩
  have hPairs := List.pairwise_iff_getElem.mp (h.apart s)
  obtain ⟨hi, hAt⟩ := List.getElem?_eq_some_iff.mp hCell
  obtain ⟨hi', hAt'⟩ := List.getElem?_eq_some_iff.mp hCell'
  rcases Nat.lt_trichotomy i i' with hLess | hEq | hMore
  · exact absurd hUrl (hPairs i i' hi hi' hLess p p' hAt hAt')
  · exact hEq
  · exact absurd hUrl.symm (hPairs i' i hi' hi hMore p' p hAt' hAt)

theorem getHash_lt (url : Word) : getHash url < CACHE_TABLE_SIZE := by
  rw [getHash]
  induction cString url using List.reverseRecOn with
  | nil => simp [CACHE_TABLE_SIZE]
  | append_singleton cs c _ =>
    rw [List.foldl_append]
    exact Nat.mod_lt _ (by simp [CACHE_TABLE_SIZE])

/-! ## Sums -/

theorem totalSpace_update {blockSize s : Nat} (slots : Nat → List Cell) (cells : List Cell)
    (hs : s < CACHE_TABLE_SIZE) :
    totalSpace blockSize (Function.update slots s cells) =
      totalSpace blockSize slots - slotSpace blockSize (slots s) + slotSpace blockSize cells := by
  have hMem : s ∈ Finset.range CACHE_TABLE_SIZE := Finset.mem_range.mpr hs
  have hFun : (fun x => slotSpace blockSize (Function.update slots s cells x)) =
      Function.update (fun x => slotSpace blockSize (slots x)) s (slotSpace blockSize cells) := by
    funext x
    by_cases hSame : x = s
    · subst hSame
      simp
    · simp [hSame]
  rw [totalSpace, totalSpace, hFun, Finset.sum_update_of_mem hMem,
    ← Finset.add_sum_erase _ _ hMem, Finset.sdiff_singleton_eq_erase]
  omega

theorem slotSpace_clear {blockSize i : Nat} {cells : List Cell} {c : Cell} (h : cells[i]? = some c) :
    slotSpace blockSize (cells.set i none) = slotSpace blockSize cells - cellSpace blockSize c := by
  induction cells generalizing i with
  | nil => simp at h
  | cons c' cells ih =>
    cases i with
    | zero =>
      cases h
      simp [slotSpace, cellSpace]
    | succ i =>
      have hRest := ih (i := i) h
      simp only [slotSpace, List.set_cons_succ, List.map_cons, List.sum_cons] at hRest ⊢
      omega

theorem slotSpace_nonneg {blockSize : Nat} {cells : List Cell}
    (h : ∀ p, some p ∈ cells → 0 ≤ entryDiskSpace p.2.size blockSize) : 0 ≤ slotSpace blockSize cells := by
  apply List.sum_nonneg
  intro x hx
  obtain ⟨c, hc, rfl⟩ := List.mem_map.mp hx
  cases c with
  | none => exact le_refl 0
  | some p => exact h p hc

theorem totalSpace_nonneg {blockSize : Nat} {slots : Nat → List Cell}
    (h : ∀ s p, some p ∈ slots s → 0 ≤ entryDiskSpace p.2.size blockSize) :
    0 ≤ totalSpace blockSize slots :=
  Finset.sum_nonneg fun s _ => slotSpace_nonneg (h s)

theorem slotSpace_cons (blockSize : Nat) (c : Cell) (cells : List Cell) :
    slotSpace blockSize (c :: cells) = cellSpace blockSize c + slotSpace blockSize cells := by
  rw [slotSpace, List.map_cons, List.sum_cons, ← slotSpace]

theorem slotSpace_eraseNulls (blockSize : Nat) (cells : List Cell) :
    slotSpace blockSize (cells.filter Option.isSome) = slotSpace blockSize cells := by
  induction cells with
  | nil => rw [List.filter_nil]
  | cons c cells ih =>
    cases c with
    | none => rw [List.filter_cons_of_neg Bool.false_ne_true, slotSpace_cons, ih, cellSpace, Int.zero_add]
    | some p => rw [List.filter_cons_of_pos rfl, slotSpace_cons, slotSpace_cons, ih]

theorem slotSpace_append (blockSize : Nat) (cells : List Cell) (c : Cell) :
    slotSpace blockSize (cells ++ [c]) = slotSpace blockSize cells + cellSpace blockSize c := by
  rw [slotSpace, List.map_append, List.sum_append, ← slotSpace, List.map_singleton, List.sum_singleton]

theorem slotSpace_congr {blockSize : Nat} {cells : List Cell} {f : Cell → Cell}
    (h : ∀ c ∈ cells, cellSpace blockSize (f c) = cellSpace blockSize c) :
    slotSpace blockSize (cells.map f) = slotSpace blockSize cells := by
  rw [slotSpace, List.map_map, slotSpace]
  congr 1
  exact List.map_congr_left h

/-- An entry's space is not more than that of all. -/
theorem cellSpace_le_totalSpace {blockSize s : Nat} {slots : Nat → List Cell} {c : Cell}
    (hs : s < CACHE_TABLE_SIZE)
    (hSpace : ∀ (s : Nat) (p : Nat × CacheEntry), some p ∈ slots s → 0 ≤ entryDiskSpace p.2.size blockSize)
    (hc : c ∈ slots s) : cellSpace blockSize c ≤ totalSpace blockSize slots := by
  have hCell : cellSpace blockSize c ≤ slotSpace blockSize (slots s) := by
    apply List.single_le_sum _ _ (List.mem_map_of_mem hc)
    intro x hx
    obtain ⟨c', hc', rfl⟩ := List.mem_map.mp hx
    cases c' with
    | none => exact le_refl 0
    | some p => exact hSpace s p hc'
  have hSlot : slotSpace blockSize (slots s) ≤ totalSpace blockSize slots :=
    Finset.single_le_sum (fun s _ => slotSpace_nonneg (hSpace s)) (Finset.mem_range.mpr hs)
  exact hCell.trans hSlot

theorem entryDiskSpace_le (size blockSize : Nat) : entryDiskSpace size blockSize ≤ INT_MAX :=
  (int32_bounds _).2

/-! ## What a call does to the table -/

theorem Apart.left_none (c : Cell) : Apart none c := by
  rintro p p' ⟨⟩

theorem Apart.right_none (c : Cell) : Apart c none := by
  rintro p p' _ ⟨⟩

/-- A null pointer is apart from all there is. -/
theorem pairwise_clear {R : Cell → Cell → Prop} (hLeft : ∀ c, R none c) (hRight : ∀ c, R c none) {cells : List Cell}
    (h : cells.Pairwise R) (i : Nat) : (cells.set i none).Pairwise R := by
  induction cells generalizing i with
  | nil => exact h
  | cons c cells ih =>
    obtain ⟨hFirst, hRest⟩ := List.pairwise_cons.mp h
    cases i with
    | zero => exact List.pairwise_cons.mpr ⟨fun c' _ => hLeft c', hRest⟩
    | succ i =>
      refine List.pairwise_cons.mpr ⟨?_, ih hRest i⟩
      intro c' hc'
      rcases List.mem_or_eq_of_mem_set hc' with hOld | rfl
      · exact hFirst c' hOld
      · exact hRight c

/-- The cells of a slot come from those of the slot before. -/
theorem Sound.setSlot {t : HTTPCacheTable} (h : Sound t) {s : Nat} {cells : List Cell} {n : Nat}
    (hs : s < CACHE_TABLE_SIZE)
    (hSize : (n : Int) = t.currentSize - slotSpace t.blockSize (t.slots s) + slotSpace t.blockSize cells)
    (hApart : cells.Pairwise Apart) (hOld : ∀ p, some p ∈ cells → some p ∈ t.slots s) :
    Sound (HTTPCacheTable.setSlot s cells { t with currentSize := n }) := by
  have hMem : ∀ (s' : Nat) (p : Nat × CacheEntry), some p ∈ Function.update t.slots s cells s' →
      some p ∈ t.slots s' := by
    intro s' p hp
    rcases eq_or_ne s' s with rfl | hOther
    · rw [Function.update_self] at hp
      exact hOld p hp
    · rwa [Function.update_of_ne hOther] at hp
  constructor
  · change (n : Int) = totalSpace t.blockSize (Function.update t.slots s cells)
    rw [totalSpace_update t.slots cells hs, hSize, h.size]
  · intro s'
    change (Function.update t.slots s cells s').Pairwise Apart
    rcases eq_or_ne s' s with rfl | hOther
    · rwa [Function.update_self]
    · rw [Function.update_of_ne hOther]
      exact h.apart s'
  · intro s' p hp
    exact h.placed s' p (hMem s' p hp)
  · intro s' p hp
    exact h.space s' p (hMem s' p hp)
  · intro s₁ s₂ p p' hp hp'
    exact h.address s₁ s₂ p p' (hMem s₁ p hp) (hMem s₂ p' hp')
  · intro s' p hp
    exact h.fresh s' p (hMem s' p hp)

theorem Sound.eraseNulls {t : HTTPCacheTable} (h : Sound t) {s : Nat} (hs : s < CACHE_TABLE_SIZE) :
    Sound (eraseNulls s t) := by
  rw [HTTPCacheTable.eraseNulls]
  refine h.setSlot (n := t.currentSize) hs ?_ ?_ ?_
  · rw [slotSpace_eraseNulls]
    omega
  · exact (h.apart s).filter _
  · intro p hp
    exact (List.mem_filter.mp hp).1

/-- The size does not get to be clamped at 0. -/
theorem Sound.subtract {t : HTTPCacheTable} (h : Sound t) {s a : Nat} {e : CacheEntry}
    (hMem : some (a, e) ∈ t.slots s) :
    ∃ n : Nat, subtract e t = { t with currentSize := n } ∧
      (n : Int) = t.currentSize - entryDiskSpace e.size t.blockSize := by
  have hs : s < CACHE_TABLE_SIZE := by
    rw [h.placed s _ hMem]
    exact getHash_lt e.url
  have hSpace : 0 ≤ entryDiskSpace e.size t.blockSize := h.space s (a, e) hMem
  have hTotal := cellSpace_le_totalSpace hs h.space hMem
  simp only [cellSpace, ← h.size] at hTotal
  have hMax := entryDiskSpace_le e.size t.blockSize
  refine ⟨_, rfl, ?_⟩
  rw [INT_MAX] at hMax
  have hUnsigned : (uint32 (entryDiskSpace e.size t.blockSize) : Int) = entryDiskSpace e.size t.blockSize := by
    rw [uint32]
    omega
  have hNotMore : ¬ uint32 (entryDiskSpace e.size t.blockSize) > t.currentSize := by omega
  rw [if_neg hNotMore]
  omega

theorem Sound.remove {t : HTTPCacheTable} (h : Sound t) {s i a : Nat} {e : CacheEntry}
    (hCell : (t.slots s)[i]? = some (some (a, e))) :
    Sound (clearCell s i (HTTPCacheTable.subtract e t)) := by
  have hMem : some (a, e) ∈ t.slots s := List.mem_of_getElem? hCell
  have hs : s < CACHE_TABLE_SIZE := by
    rw [h.placed s _ hMem]
    exact getHash_lt e.url
  obtain ⟨n, hSubtract, hSize⟩ := h.subtract hMem
  rw [hSubtract, clearCell]
  refine h.setSlot hs ?_ (pairwise_clear Apart.left_none Apart.right_none (h.apart s) i) ?_
  · rw [slotSpace_clear hCell, cellSpace, hSize]
    ring
  · intro p hp
    rcases List.mem_or_eq_of_mem_set hp with hOld | hNone
    · exact hOld
    · cases hNone

/-- An entry is changed, but not its URL or its size. -/
theorem Sound.setEntry {t : HTTPCacheTable} (h : Sound t) {s a : Nat} {e e' : CacheEntry}
    (hMem : some (a, e) ∈ t.slots s) (hUrl : e'.url = e.url) (hSize : e'.size = e.size) :
    Sound (HTTPCacheTable.setEntry a e' t) := by
  have hSame : ∀ (s' : Nat) (p : Nat × CacheEntry), some p ∈ t.slots s' → p.1 = a → p = (a, e) :=
    fun s' p hp hAddress => h.address s' s p (a, e) hp hMem hAddress
  have hOf : ∀ (s' : Nat) (p : Nat × CacheEntry), some p ∈ (HTTPCacheTable.setEntry a e' t).slots s' →
      ∃ q, some q ∈ t.slots s' ∧ p = (if q.1 = a then (a, e') else q) ∧ p.1 = q.1 ∧ p.2.url = q.2.url ∧
        p.2.size = q.2.size := by
    intro s' p hp
    obtain ⟨c, hc, hMap⟩ := List.mem_map.mp hp
    obtain ⟨q, rfl, rfl⟩ := Option.map_eq_some_iff.mp hMap
    refine ⟨q, hc, rfl, ?_⟩
    split
    · rename_i hAddress
      obtain rfl := hSame s' q hc hAddress
      exact ⟨rfl, hUrl, hSize⟩
    · exact ⟨rfl, rfl, rfl⟩
  constructor
  · change (t.currentSize : Int) = totalSpace t.blockSize (HTTPCacheTable.setEntry a e' t).slots
    rw [h.size]
    refine Finset.sum_congr rfl ?_
    intro s' _
    refine (slotSpace_congr ?_).symm
    intro c hc
    cases c with
    | none => rfl
    | some p =>
      rw [Option.map_some, cellSpace, cellSpace]
      split
      · rename_i hAddress
        obtain rfl := hSame s' p hc hAddress
        rw [hSize]
      · rfl
  · intro s'
    refine List.pairwise_map.mpr ((h.apart s').imp_of_mem ?_)
    intro c c' hc hc' hApart p p' hp hp'
    obtain ⟨q, rfl, rfl⟩ := Option.map_eq_some_iff.mp hp
    obtain ⟨q', rfl, rfl⟩ := Option.map_eq_some_iff.mp hp'
    have hNew : ∀ q : Nat × CacheEntry, some q ∈ t.slots s' →
        (if q.1 = a then (a, e') else q).2.url = q.2.url := by
      intro q hq
      split
      · rename_i hAddress
        obtain rfl := hSame s' q hq hAddress
        exact hUrl
      · rfl
    rw [hNew q hc, hNew q' hc']
    exact hApart q q' rfl rfl
  · intro s' p hp
    obtain ⟨q, hq, -, -, hUrl', -⟩ := hOf s' p hp
    rw [hUrl']
    exact h.placed s' q hq
  · intro s' p hp
    obtain ⟨q, hq, -, -, -, hSize'⟩ := hOf s' p hp
    rw [hSize']
    exact h.space s' q hq
  · intro s₁ s₂ p p' hp hp' hAddress
    obtain ⟨q, hq, hEq, hFst, -, -⟩ := hOf s₁ p hp
    obtain ⟨q', hq', hEq', hFst', -, -⟩ := hOf s₂ p' hp'
    rw [hFst, hFst'] at hAddress
    rw [hEq, hEq', h.address s₁ s₂ q q' hq hq' hAddress]
  · intro s' p hp
    obtain ⟨q, hq, -, hFst, -, -⟩ := hOf s' p hp
    rw [hFst]
    exact h.fresh s' q hq

/-- What the callers of `add_entry_to_cache_table` see to. -/
structure Addable (t : HTTPCacheTable) (e : CacheEntry) : Prop where
  hash : e.hash = getHash e.url
  new : ∀ (s : Nat) (p : Nat × CacheEntry), some p ∈ t.slots s → p.2.url ≠ e.url
  space : 0 ≤ entryDiskSpace e.size t.blockSize
  fits : t.currentSize + entryDiskSpace e.size t.blockSize < 18446744073709551616

theorem Sound.push {t : HTTPCacheTable} (h : Sound t) {e : CacheEntry} (hAdd : Addable t e) :
    Sound (push e t) := by
  have hSlot : e.hash.toNat = getHash e.url := by
    rw [hAdd.hash]
    exact Int.toNat_natCast _
  have hMem : ∀ (s : Nat) (p : Nat × CacheEntry), some p ∈ (HTTPCacheTable.push e t).slots s →
      some p ∈ t.slots s ∨ s = getHash e.url ∧ p = (t.nextAddress, e) := by
    intro s p hp
    rw [HTTPCacheTable.push, hSlot] at hp
    rcases eq_or_ne s (getHash e.url) with rfl | hOther
    · simp only [Function.update_self] at hp
      rcases List.mem_append.mp hp with hOld | hNew
      · exact Or.inl hOld
      · exact Or.inr ⟨rfl, Option.some.inj (List.mem_singleton.mp hNew)⟩
    · simp only [Function.update_of_ne hOther] at hp
      exact Or.inl hp
  constructor
  · rw [HTTPCacheTable.push, hSlot]
    simp only [totalSpace_update t.slots _ (getHash_lt e.url), slotSpace_append, cellSpace]
    have hSize := h.size
    have hFits := hAdd.fits
    have hSpace := hAdd.space
    rw [uint64]
    omega
  · intro s
    rw [HTTPCacheTable.push, hSlot]
    rcases eq_or_ne s (getHash e.url) with rfl | hOther
    · simp only [Function.update_self]
      refine List.pairwise_append.mpr ⟨h.apart _, List.pairwise_singleton _ _, ?_⟩
      rintro c hc _ hc' p p' rfl hp'
      rw [List.mem_singleton.mp hc'] at hp'
      cases hp'
      exact hAdd.new _ p hc
    · simp only [Function.update_of_ne hOther]
      exact h.apart s
  · intro s p hp
    rcases hMem s p hp with hOld | ⟨rfl, rfl⟩
    · exact h.placed s p hOld
    · rfl
  · intro s p hp
    rcases hMem s p hp with hOld | ⟨rfl, rfl⟩
    · exact h.space s p hOld
    · exact hAdd.space
  · intro s s' p p' hp hp' hAddress
    rcases hMem s p hp with hOld | ⟨rfl, rfl⟩
    · rcases hMem s' p' hp' with hOld' | ⟨rfl, rfl⟩
      · exact h.address s s' p p' hOld hOld' hAddress
      · exact absurd hAddress (h.fresh s p hOld).ne
    · rcases hMem s' p' hp' with hOld' | ⟨rfl, rfl⟩
      · exact absurd hAddress (h.fresh s' p' hOld').ne'
      · rfl
  · intro s p hp
    rcases hMem s p hp with hOld | ⟨rfl, rfl⟩
    · exact (h.fresh s p hOld).trans (Nat.lt_succ_self _)
    · exact Nat.lt_succ_self _

end Libdap.Http
