import Mathlib.Data.List.Infix

/-! # Loops that edit a text in place

`while ((i = find(s, i)) != npos) { s.replace(i, cut, put); i += step; }`, and the loops that search from the front
again each time. What stands before the index is never changed, so that a loop is known by what it does to the rest.
-/

namespace Libdap.InPlace
set_option autoImplicit false

variable {α : Type}

/-- What is done at a place that was found. -/
structure Edit (α : Type) where
  cut : Nat
  put : List α
  step : Nat

/-- The first place from `i` on where the text is one that `f` finds; the text starts at `i`. -/
def find (f : List α → Option (Edit α)) : List α → Nat → Option (Nat × Edit α)
  | [], _ => none
  | c :: cs, i =>
    match f (c :: cs) with
    | some e => some (i, e)
    | none => find f cs (i + 1)

def replace (s : List α) (i cut : Nat) (put : List α) : List α := s.take i ++ (put ++ s.drop (i + cut))

/-- The loop from the index `i` on; nothing, when it takes more turns than allowed. -/
def sweep (f : List α → Option (Edit α)) : Nat → List α → Nat → Option (List α)
  | 0, _, _ => none
  | k + 1, s, i =>
    match find f (s.drop i) i with
    | none => some s
    | some (j, e) => sweep f k (replace s j e.cut e.put) (j + e.step)

/-- The loop that searches the whole text each time. -/
def rescan (f : List α → Option (Edit α)) : Nat → List α → Option (List α)
  | 0, _ => none
  | k + 1, s =>
    match find f s 0 with
    | none => some s
    | some (j, e) => rescan f k (replace s j e.cut e.put)

attribute [local grind =] find sweep rescan

variable {f : List α → Option (Edit α)} {k : Nat} {p r s t : List α} {e : Edit α}

theorem find_shift (f : List α → Option (Edit α)) (s : List α) (i : Nat) :
    find f s i = (find f s 0).map fun q => (i + q.1, q.2) := by
  induction s generalizing i with
  | nil => rfl
  | cons c cs ih =>
    rw [find, find]
    cases f (c :: cs) with
    | some e => rfl
    | none =>
      dsimp only
      rw [ih (i + 1), ih (0 + 1)]
      cases find f cs 0 with
      | none => rfl
      | some q => simp only [Option.map_some, Nat.zero_add, Nat.add_assoc]

theorem find_eq_none : find f s 0 = none ↔ ∀ j < s.length, f (s.drop j) = none := by
  induction s with
  | nil => simp [find]
  | cons c cs ih =>
    rw [find]
    cases hHead : f (c :: cs) with
    | some e => simpa using ⟨0, by simp, by simp [hHead]⟩
    | none =>
      dsimp only
      rw [find_shift, Option.map_eq_none_iff, ih]
      constructor
      · intro h j hj
        cases j with
        | zero => exact hHead
        | succ j => exact h j (Nat.lt_of_succ_lt_succ hj)
      · intro h j hj
        exact h (j + 1) (Nat.succ_lt_succ hj)

theorem find_eq_some {j : Nat} : find f s 0 = some (j, e) ↔
    j < s.length ∧ f (s.drop j) = some e ∧ ∀ i < j, f (s.drop i) = none := by
  induction s generalizing j with
  | nil => simp [find]
  | cons c cs ih =>
    rw [find]
    cases hHead : f (c :: cs) with
    | some e' =>
      dsimp only
      constructor
      · rintro ⟨⟩
        exact ⟨by simp, hHead, fun i hi => absurd hi (Nat.not_lt_zero i)⟩
      · rintro ⟨_, hAt, hBefore⟩
        cases j with
        | zero =>
          rw [List.drop_zero, hHead] at hAt
          cases hAt
          rfl
        | succ j => simpa [hHead] using hBefore 0 (Nat.succ_pos j)
    | none =>
      dsimp only
      rw [find_shift]
      constructor
      · intro h
        obtain ⟨⟨j', e'⟩, hRest, hEq⟩ := Option.map_eq_some_iff.mp h
        cases hEq
        obtain ⟨hj, hAt, hBefore⟩ := ih.mp hRest
        dsimp only
        rw [Nat.zero_add, Nat.add_comm]
        refine ⟨Nat.succ_lt_succ hj, hAt, fun i hi => ?_⟩
        cases i with
        | zero => exact hHead
        | succ i => exact hBefore i (Nat.lt_of_succ_lt_succ hi)
      · rintro ⟨hj, hAt, hBefore⟩
        cases j with
        | zero =>
          rw [List.drop_zero, hHead] at hAt
          cases hAt
        | succ j =>
          have hRest := ih.mpr ⟨Nat.lt_of_succ_lt_succ hj, hAt, fun i hi => hBefore (i + 1) (Nat.succ_lt_succ hi)⟩
          rw [hRest]
          simp only [Option.map_some, Nat.zero_add, Nat.add_comm 1]

theorem replace_append (p s : List α) (i cut : Nat) (put : List α) :
    replace (p ++ s) (p.length + i) cut put = p ++ replace s i cut put := by
  rw [replace, replace, List.take_length_add_append, Nat.add_assoc, List.drop_length_add_append, List.append_assoc]

/-- What stands before the index stays as it is. -/
theorem sweep_append (f : List α → Option (Edit α)) (k : Nat) (p s : List α) (i : Nat) :
    sweep f k (p ++ s) (p.length + i) = (sweep f k s i).map (p ++ ·) := by
  induction k generalizing s i with
  | zero => rfl
  | succ k ih =>
    rw [sweep, sweep, List.drop_length_add_append, find_shift, find_shift f (s.drop i) i]
    cases find f (s.drop i) 0 with
    | none => rfl
    | some q =>
      simp only [Option.map_some]
      rw [Nat.add_assoc, replace_append, Nat.add_assoc, ih]

theorem sweep_behind (f : List α → Option (Edit α)) (k : Nat) (p s : List α) :
    sweep f k (p ++ s) p.length = (sweep f k s 0).map (p ++ ·) := sweep_append f k p s 0

@[simp] theorem sweep_nil (f : List α → Option (Edit α)) (k i : Nat) : sweep f (k + 1) [] i = some [] := by
  rw [sweep, List.drop_nil, find]

theorem sweep_of_none (h : ∀ j < s.length, f (s.drop j) = none) : sweep f (k + 1) s 0 = some s := by
  rw [sweep, List.drop_zero, find_eq_none.mpr h]

theorem sweep_skip {c : α} {cs : List α} (h : f (c :: cs) = none) :
    sweep f k (c :: cs) 0 = (sweep f k cs 0).map (c :: ·) := by
  rw [show (fun s => c :: s) = ([c] ++ ·) from rfl, ← sweep_behind]
  cases k with
  | zero => rfl
  | succ k =>
    rw [sweep, sweep, List.drop_zero, find, h]
    rfl

theorem sweep_hit (hs : s ≠ []) (h : f s = some e) :
    sweep f (k + 1) s 0 = sweep f k (e.put ++ s.drop e.cut) e.step := by
  cases s with
  | nil => exact absurd rfl hs
  | cons c cs =>
    rw [sweep, List.drop_zero, find, h]
    dsimp only
    rw [replace, List.take_zero, List.nil_append, Nat.zero_add, Nat.zero_add]

/-- A turn that moves over what it has put in. -/
theorem sweep_over (hs : s ≠ []) (h : f s = some e) (hStep : e.step = e.put.length) :
    sweep f (k + 1) s 0 = (sweep f k (s.drop e.cut) 0).map (e.put ++ ·) := by
  rw [sweep_hit hs h, hStep, sweep_behind]

theorem sweep_from (f : List α → Option (Edit α)) (k : Nat) (s : List α) (i : Nat) :
    sweep f (k + 1) s i = (sweep f (k + 1) (s.drop i) 0).map (s.take i ++ ·) := by
  by_cases h : i ≤ s.length
  · have hBehind := sweep_behind f (k + 1) (s.take i) (s.drop i)
    rw [List.take_append_drop, List.length_take, Nat.min_eq_left h] at hBehind
    exact hBehind
  · rw [List.drop_eq_nil_of_le (by omega), List.take_of_length_le (by omega), sweep_nil, sweep,
      List.drop_eq_nil_of_le (by omega), find, Option.map_some, List.append_nil]

theorem sweep_mono {m i : Nat} (h : sweep f k s i = some t) (hk : k ≤ m) : sweep f m s i = some t := by
  induction k generalizing s i m with
  | zero => cases h
  | succ k ih =>
    cases m with
    | zero => exact absurd hk (Nat.not_succ_le_zero k)
    | succ m =>
      rw [sweep] at h ⊢
      cases hFind : find f (s.drop i) i with
      | none =>
        rw [hFind] at h
        exact h
      | some q =>
        rw [hFind] at h
        exact ih h (Nat.le_of_succ_le_succ hk)

/-- The loop from the front ends with this text. -/
def Gives (f : List α → Option (Edit α)) (s t : List α) : Prop := ∃ k, sweep f k s 0 = some t

namespace Gives

theorem nil (f : List α → Option (Edit α)) : Gives f [] [] := ⟨1, sweep_nil f 0 0⟩

theorem unique {t' : List α} (h : Gives f s t) (h' : Gives f s t') : t = t' := by
  obtain ⟨k, hk⟩ := h
  obtain ⟨k', hk'⟩ := h'
  have hLeft := sweep_mono hk (Nat.le_max_left k k')
  have hRight := sweep_mono hk' (Nat.le_max_right k k')
  exact Option.some.inj (hLeft.symm.trans hRight)

theorem skip_iff {c : α} {cs : List α} (hc : f (c :: cs) = none) :
    Gives f (c :: cs) t ↔ ∃ t', t = c :: t' ∧ Gives f cs t' := by
  constructor
  · rintro ⟨k, hk⟩
    rw [sweep_skip hc] at hk
    obtain ⟨t', hRest, rfl⟩ := Option.map_eq_some_iff.mp hk
    exact ⟨t', rfl, k, hRest⟩
  · rintro ⟨t', rfl, k, hk⟩
    refine ⟨k, ?_⟩
    rw [sweep_skip hc, hk]
    rfl

theorem skip {c : α} {cs : List α} (hc : f (c :: cs) = none) (h : Gives f cs t) : Gives f (c :: cs) (c :: t) :=
  (skip_iff hc).mpr ⟨t, rfl, h⟩

/-- A turn that stays at its place. -/
theorem hit_iff (hs : s ≠ []) (he : f s = some e) (hStep : e.step = 0) :
    Gives f s t ↔ Gives f (e.put ++ s.drop e.cut) t := by
  constructor
  · rintro ⟨k, hk⟩
    cases k with
    | zero => cases hk
    | succ k =>
      rw [sweep_hit hs he, hStep] at hk
      exact ⟨k, hk⟩
  · rintro ⟨k, hk⟩
    refine ⟨k + 1, ?_⟩
    rw [sweep_hit hs he, hStep, hk]

/-- A turn that moves on by `step`. -/
theorem move (hs : s ≠ []) (he : f s = some e) (h : Gives f ((e.put ++ s.drop e.cut).drop e.step) t) :
    Gives f s ((e.put ++ s.drop e.cut).take e.step ++ t) := by
  obtain ⟨k, hk⟩ := h
  refine ⟨k + 1 + 1, ?_⟩
  rw [sweep_hit hs he, sweep_from, sweep_mono hk (Nat.le_succ k)]
  rfl

theorem of_none (h : ∀ j < s.length, f (s.drop j) = none) : Gives f s s := ⟨1, sweep_of_none h⟩

/-- A loop whose turns all shorten the text. -/
theorem length_le (hShort : ∀ r e, f r = some e → e.cut ≤ r.length ∧ e.put.length < e.cut) (h : Gives f s t) :
    t.length ≤ s.length ∧ (t.length = s.length → ∀ j < s.length, f (s.drop j) = none) := by
  obtain ⟨k, hk⟩ := h
  suffices hScan : ∀ (k i : Nat) (s : List α), sweep f k s i = some t →
      t.length ≤ s.length ∧ (t.length = s.length → find f (s.drop i) i = none) by
    obtain ⟨hLength, hNone⟩ := hScan k 0 s hk
    exact ⟨hLength, fun hEq => find_eq_none.mp (hNone hEq)⟩
  intro k
  induction k with
  | zero =>
    intro i s h
    cases h
  | succ k ih =>
    intro i s h
    rw [sweep] at h
    cases hFind : find f (s.drop i) i with
    | none =>
      rw [hFind] at h
      cases h
      exact ⟨Nat.le_refl _, fun _ => rfl⟩
    | some q =>
      obtain ⟨j, e⟩ := q
      rw [hFind] at h
      obtain ⟨hLength, -⟩ := ih _ _ h
      rw [find_shift] at hFind
      obtain ⟨⟨j', e'⟩, hAt, hEq⟩ := Option.map_eq_some_iff.mp hFind
      cases hEq
      obtain ⟨hj, hEdit, -⟩ := find_eq_some.mp hAt
      obtain ⟨hCut, hPut⟩ := hShort _ _ hEdit
      simp only [replace, List.length_append, List.length_take, List.length_drop] at hLength
      rw [List.length_drop] at hj
      rw [List.drop_drop, List.length_drop] at hCut
      have hLess : t.length < s.length := by omega
      exact ⟨Nat.le_of_lt hLess, fun hEq => absurd hEq (Nat.ne_of_lt hLess)⟩

end Gives

/-- Turns that leave less of the text to go through are no more than its length. -/
theorem sweep_total (hLess : ∀ r e, f r = some e → (e.put ++ r.drop e.cut).length < r.length + e.step ∧
      e.step ≤ (e.put ++ r.drop e.cut).length) (k : Nat) (s : List α) (i : Nat) (hi : i ≤ s.length)
    (hk : s.length < k + i) : ∃ t, sweep f k s i = some t := by
  induction k generalizing s i with
  | zero => exact absurd hk (by omega)
  | succ k ih =>
    rw [sweep]
    cases hFind : find f (s.drop i) i with
    | none => exact ⟨s, rfl⟩
    | some q =>
      rw [find_shift] at hFind
      obtain ⟨⟨j, e⟩, hAt, hEq⟩ := Option.map_eq_some_iff.mp hFind
      cases hEq
      obtain ⟨hj, hEdit, -⟩ := find_eq_some.mp hAt
      obtain ⟨hShort, hStep⟩ := hLess _ _ hEdit
      simp only [List.length_drop, List.length_append] at hj hShort hStep
      apply ih
      · simp only [replace, List.length_append, List.length_take, List.length_drop]
        omega
      · simp only [replace, List.length_append, List.length_take, List.length_drop]
        omega

/-- Enough turns are allowed: the loop ends as it ends with any number of them. -/
theorem Gives.sweep_eq (h : Gives f s t) (hTotal : ∃ t, sweep f k s 0 = some t) : sweep f k s 0 = some t := by
  obtain ⟨t', hk⟩ := hTotal
  rw [hk, Gives.unique ⟨k, hk⟩ h]

/-- A loop that puts for each character what `g` says, where nothing more is found in what it does not step over. -/
theorem sweep_flatMap {g : α → List α}
    (hf : ∀ c ∈ s, ∀ cs, f (c :: cs) = none ∧ g c = [c] ∨
      ∃ step ≤ (g c).length, f (c :: cs) = some ⟨1, g c, step⟩ ∧ ∀ d ∈ (g c).drop step, ∀ ds, f (d :: ds) = none) :
    sweep f (s.length + 1) s 0 = some (s.flatMap g) := by
  induction s with
  | nil => exact sweep_nil f 0 0
  | cons c cs ih =>
    have ih := ih fun d hd => hf d (List.mem_cons_of_mem c hd)
    rw [List.flatMap_cons, List.length_cons]
    rcases hf c List.mem_cons_self cs with ⟨hSkip, hSame⟩ | ⟨step, hStep, hHit, hRest⟩
    · rw [sweep_skip hSkip, sweep_mono ih (Nat.le_succ _), hSame]
      rfl
    · have hOver : ∀ p : List α, (∀ d ∈ p, ∀ ds, f (d :: ds) = none) →
          sweep f (cs.length + 1) (p ++ cs) 0 = some (p ++ cs.flatMap g) := by
        intro p hp
        induction p with
        | nil => exact ih
        | cons d p ihp =>
          rw [List.cons_append, sweep_skip (hp d List.mem_cons_self _),
            ihp fun x hx => hp x (List.mem_cons_of_mem d hx)]
          rfl
      rw [sweep_hit (by simp) hHit, sweep_from]
      dsimp only
      rw [List.drop_succ_cons, List.drop_zero, List.drop_append_of_le_length hStep, List.take_append_of_le_length hStep,
        hOver _ hRest, Option.map_some, ← List.append_assoc, List.take_append_drop]

theorem rescan_mono {m : Nat} (h : rescan f k s = some t) (hk : k ≤ m) : rescan f m s = some t := by
  induction k generalizing s m with
  | zero => cases h
  | succ k ih =>
    cases m with
    | zero => exact absurd hk (Nat.not_succ_le_zero k)
    | succ m =>
      rw [rescan] at h ⊢
      cases hFind : find f s 0 with
      | none =>
        rw [hFind] at h
        exact h
      | some q =>
        rw [hFind] at h
        exact ih h (Nat.le_of_succ_le_succ hk)

/-- The loop that searches the whole text ends with this text. -/
def Rests (f : List α → Option (Edit α)) (s t : List α) : Prop := ∃ k, rescan f k s = some t

namespace Rests

theorem unique {t' : List α} (h : Rests f s t) (h' : Rests f s t') : t = t' := by
  obtain ⟨k, hk⟩ := h
  obtain ⟨k', hk'⟩ := h'
  have hLeft := rescan_mono hk (Nat.le_max_left k k')
  have hRight := rescan_mono hk' (Nat.le_max_right k k')
  exact Option.some.inj (hLeft.symm.trans hRight)

theorem of_none (h : find f s 0 = none) : Rests f s s := ⟨1, by rw [rescan, h]⟩

theorem hit_iff {j : Nat} (h : find f s 0 = some (j, e)) : Rests f s t ↔ Rests f (replace s j e.cut e.put) t := by
  constructor
  · rintro ⟨k, hk⟩
    cases k with
    | zero => cases hk
    | succ k =>
      rw [rescan, h] at hk
      exact ⟨k, hk⟩
  · rintro ⟨k, hk⟩
    refine ⟨k + 1, ?_⟩
    rw [rescan, h]
    exact hk

/-- Nothing is found in what the loop leaves. -/
theorem find_eq_none (h : Rests f s t) : find f t 0 = none := by
  obtain ⟨k, hk⟩ := h
  induction k generalizing s with
  | zero => cases hk
  | succ k ih =>
    rw [rescan] at hk
    cases hFind : find f s 0 with
    | none =>
      rw [hFind] at hk
      cases hk
      exact hFind
    | some q =>
      rw [hFind] at hk
      exact ih hk

theorem length_le (hShort : ∀ r e, f r = some e → e.cut ≤ r.length ∧ e.put.length < e.cut) (h : Rests f s t) :
    t.length ≤ s.length ∧ (t.length = s.length → find f s 0 = none) := by
  obtain ⟨k, hk⟩ := h
  induction k generalizing s with
  | zero => cases hk
  | succ k ih =>
    rw [rescan] at hk
    cases hFind : find f s 0 with
    | none =>
      rw [hFind] at hk
      cases hk
      exact ⟨Nat.le_refl _, fun _ => rfl⟩
    | some q =>
      obtain ⟨j, e⟩ := q
      rw [hFind] at hk
      obtain ⟨hLength, -⟩ := ih hk
      obtain ⟨hj, hEdit, -⟩ := find_eq_some.mp hFind
      obtain ⟨hCut, hPut⟩ := hShort _ _ hEdit
      rw [List.length_drop] at hCut
      simp only [replace, List.length_append, List.length_take, List.length_drop] at hLength
      have hLess : t.length < s.length := by omega
      exact ⟨Nat.le_of_lt hLess, fun hEq => absurd hEq (Nat.ne_of_lt hLess)⟩

/-- Where a turn never makes a place before it one that is found, the loop goes on from its place. -/
theorem of_gives {I : List α → Prop} (hStay : ∀ r e, f r = some e → e.step = 0)
    (hKeep : ∀ p r e, I (p ++ r) → (∀ i < p.length, f ((p ++ r).drop i) = none) → f r = some e →
      I (p ++ (e.put ++ r.drop e.cut)) ∧ ∀ i < p.length, f ((p ++ (e.put ++ r.drop e.cut)).drop i) = none)
    (hI : I s) (h : Gives f s t) : Rests f s t := by
  obtain ⟨k, hk⟩ := h
  suffices hRun : ∀ (k : Nat) (p r : List α), I (p ++ r) → (∀ i < p.length, f ((p ++ r).drop i) = none) →
      sweep f k (p ++ r) p.length = some t → rescan f k (p ++ r) = some t from
    ⟨k, hRun k [] s hI (fun i hi => absurd hi (Nat.not_lt_zero i)) hk⟩
  intro k
  induction k with
  | zero =>
    intro p r _ _ h
    cases h
  | succ k ih =>
    intro p r hInv hBefore h
    rw [sweep, List.drop_left, find_shift] at h
    cases hFind : find f r 0 with
    | none =>
      rw [hFind] at h
      have hAll : find f (p ++ r) 0 = none := by
        apply InPlace.find_eq_none.mpr
        intro j hj
        rcases Nat.lt_or_ge j p.length with hLess | hGe
        · exact hBefore j hLess
        · obtain ⟨j', rfl⟩ := Nat.exists_eq_add_of_le hGe
          rw [List.drop_length_add_append]
          rw [List.length_append] at hj
          exact InPlace.find_eq_none.mp hFind j' (Nat.lt_of_add_lt_add_left hj)
      rw [rescan, hAll]
      exact h
    | some q =>
      obtain ⟨j, e⟩ := q
      rw [hFind] at h
      obtain ⟨hj, hEdit, hNone⟩ := find_eq_some.mp hFind
      have hSplit : p ++ r = p ++ r.take j ++ r.drop j := by rw [List.append_assoc, List.take_append_drop]
      have hLength : (p ++ r.take j).length = p.length + j := by
        rw [List.length_append, List.length_take, Nat.min_eq_left (Nat.le_of_lt hj)]
      have hBefore' : ∀ i < (p ++ r.take j).length, f ((p ++ r).drop i) = none := by
        intro i hi
        rcases Nat.lt_or_ge i p.length with hLess | hGe
        · exact hBefore i hLess
        · obtain ⟨i', rfl⟩ := Nat.exists_eq_add_of_le hGe
          rw [List.drop_length_add_append]
          rw [hLength] at hi
          exact hNone i' (Nat.lt_of_add_lt_add_left hi)
      have hPlace : replace (p ++ r) (p.length + j) e.cut e.put =
          p ++ r.take j ++ (e.put ++ (r.drop j).drop e.cut) := by
        rw [replace_append, replace, List.drop_drop, List.append_assoc]
      rw [hSplit] at hInv hBefore'
      obtain ⟨hInv', hKept⟩ := hKeep _ _ _ hInv hBefore' hEdit
      have hAll : find f (p ++ r) 0 = some (p.length + j, e) := by
        apply find_eq_some.mpr
        refine ⟨?_, ?_, ?_⟩
        · rw [List.length_append]
          exact Nat.add_lt_add_left hj p.length
        · rw [List.drop_length_add_append]
          exact hEdit
        · rw [← hLength, hSplit]
          exact hBefore'
      rw [rescan, hAll]
      dsimp only
      rw [hPlace]
      apply ih _ _ hInv' hKept
      simp only [Option.map_some] at h
      rw [hPlace, hStay _ _ hEdit, Nat.add_zero, ← hLength] at h
      exact h

end Rests

theorem rescan_total (hShort : ∀ r e, f r = some e → e.cut ≤ r.length ∧ e.put.length < e.cut) (k : Nat) (s : List α)
    (hk : s.length < k) : ∃ t, rescan f k s = some t := by
  induction k generalizing s with
  | zero => exact absurd hk (Nat.not_lt_zero _)
  | succ k ih =>
    rw [rescan]
    cases hFind : find f s 0 with
    | none => exact ⟨s, rfl⟩
    | some q =>
      obtain ⟨j, e⟩ := q
      obtain ⟨hj, hEdit, -⟩ := find_eq_some.mp hFind
      obtain ⟨hCut, hPut⟩ := hShort _ _ hEdit
      rw [List.length_drop] at hCut
      apply ih
      simp only [replace, List.length_append, List.length_take, List.length_drop]
      omega

end Libdap.InPlace
