import Mathlib.Data.List.Infix

/-! # Patterns with stars, matched from the shortest suffix on

A matcher that tries the suffixes of the text for what is behind a star, the shortest first, may stop at the first one
that is longer than what the pattern takes: no longer suffix matches either.
-/

namespace Libdap.Wildcard
set_option autoImplicit false

variable {α : Type}

/-- Any text, or one symbol out of a set. -/
inductive Element (α : Type)
  | star
  | one (accepts : α → Bool)

/-- The language of a pattern. -/
inductive Matches : List (Element α) → List α → Prop
  | nil : Matches [] []
  | one {accepts : α → Bool} {x : α} {es : List (Element α)} {s : List α} (hx : accepts x = true)
      (h : Matches es s) : Matches (.one accepts :: es) (x :: s)
  | star {es : List (Element α)} (u : List α) {s : List α} (h : Matches es s) : Matches (.star :: es) (u ++ s)

/-- How an attempt ends: with a match, with text left over behind the last element, or at a symbol that is missing. -/
inductive Verdict
  | matched
  | surplus
  | failed
  deriving DecidableEq, Repr

/-- The suffixes without the text itself, the shortest first. -/
def suffixes : List α → List (List α)
  | [] => []
  | _ :: s => suffixes s ++ [s]

/-- The attempts one after the other, as long as they fail. -/
def search (attempt : List α → Verdict) : List (List α) → Option Verdict
  | [] => none
  | t :: ts =>
    match attempt t with
    | .matched => some .matched
    | .surplus => some .failed
    | .failed => search attempt ts

def verdict : List (Element α) → List α → Verdict
  | [], [] => .matched
  | [], _ :: _ => .surplus
  | .one _ :: _, [] => .failed
  | .one accepts :: es, x :: s => if accepts x then verdict es s else .failed
  | .star :: es, s => (search (verdict es) (suffixes s)).getD (verdict es s)

/-- It holds of every text that the search tries. -/
def Tried (attempt : List α → Verdict) (P : List α → Prop) : List (List α) → Prop
  | [] => True
  | t :: ts => P t ∧ (attempt t = .failed → Tried attempt P ts)

attribute [local grind =] suffixes search verdict Tried

variable {es : List (Element α)} {s t : List α} {attempt : List α → Verdict} {ts us : List (List α)} {v : Verdict}

theorem mem_suffixes : t ∈ suffixes s ↔ ∃ x u, s = x :: (u ++ t) := by
  induction s with
  | nil => simp [suffixes]
  | cons y s ih =>
    rw [suffixes, List.mem_append, List.mem_singleton, ih]
    constructor
    · rintro (⟨x, u, rfl⟩ | rfl)
      · exact ⟨y, x :: u, rfl⟩
      · exact ⟨y, [], rfl⟩
    · rintro ⟨x, u, hEq⟩
      cases hEq
      cases u with
      | nil => exact .inr rfl
      | cons z u => exact .inl ⟨z, u, rfl⟩

theorem suffixes_append_cons (u : List α) (x : α) (t : List α) :
    ∃ ts, suffixes (u ++ x :: t) = suffixes t ++ t :: ts := by
  induction u with
  | nil => exact ⟨[], rfl⟩
  | cons y u ih =>
    obtain ⟨ts, hEq⟩ := ih
    refine ⟨ts ++ [u ++ x :: t], ?_⟩
    rw [List.cons_append, suffixes, hEq, List.append_assoc, List.cons_append]

theorem search_eq_none : search attempt ts = none ↔ ∀ t ∈ ts, attempt t = .failed := by
  induction ts with
  | nil => simp [search]
  | cons t ts ih =>
    rw [search, List.forall_mem_cons]
    cases attempt t with
    | failed => simpa using ih
    | matched => simp
    | surplus => simp

/-- The attempt that ends the search, and those before it. -/
theorem search_eq_some : search attempt ts = some v ↔ ∃ us t vs, ts = us ++ t :: vs ∧
    (∀ u ∈ us, attempt u = .failed) ∧
      (attempt t = .matched ∧ v = .matched ∨ attempt t = .surplus ∧ v = .failed) := by
  induction ts with
  | nil => simp [search]
  | cons t ts ih =>
    rw [search]
    cases hHead : attempt t with
    | matched =>
      constructor
      · rintro ⟨⟩
        exact ⟨[], t, ts, rfl, by simp, .inl ⟨hHead, rfl⟩⟩
      · rintro ⟨us, t', vs, hEq, hBefore, hEnd⟩
        cases us with
        | nil =>
          cases hEq
          rw [hHead] at hEnd
          obtain ⟨-, rfl⟩ | ⟨hOver, -⟩ := hEnd
          · rfl
          · cases hOver
        | cons u us =>
          cases hEq
          have hFailed := hBefore t List.mem_cons_self
          rw [hHead] at hFailed
          cases hFailed
    | surplus =>
      constructor
      · rintro ⟨⟩
        exact ⟨[], t, ts, rfl, by simp, .inr ⟨hHead, rfl⟩⟩
      · rintro ⟨us, t', vs, hEq, hBefore, hEnd⟩
        cases us with
        | nil =>
          cases hEq
          rw [hHead] at hEnd
          obtain ⟨hMatched, -⟩ | ⟨-, rfl⟩ := hEnd
          · cases hMatched
          · rfl
        | cons u us =>
          cases hEq
          have hFailed := hBefore t List.mem_cons_self
          rw [hHead] at hFailed
          cases hFailed
    | failed =>
      dsimp only
      rw [ih]
      constructor
      · rintro ⟨us, t', vs, rfl, hBefore, hEnd⟩
        exact ⟨t :: us, t', vs, rfl, List.forall_mem_cons.mpr ⟨hHead, hBefore⟩, hEnd⟩
      · rintro ⟨us, t', vs, hEq, hBefore, hEnd⟩
        cases us with
        | nil =>
          cases hEq
          rw [hHead] at hEnd
          obtain ⟨hMatched, -⟩ | ⟨hOver, -⟩ := hEnd
          · cases hMatched
          · cases hOver
        | cons u us =>
          cases hEq
          exact ⟨us, t', vs, rfl, fun w hw => hBefore w (List.mem_cons_of_mem t hw), hEnd⟩

theorem search_ne_surplus : search attempt ts ≠ some .surplus := by
  intro h
  obtain ⟨us, t, vs, -, -, ⟨-, hOver⟩ | ⟨-, hOver⟩⟩ := search_eq_some.mp h
  · cases hOver
  · cases hOver

theorem matches_star_iff : Matches (.star :: es) s ↔ ∃ u t, s = u ++ t ∧ Matches es t := by
  constructor
  · intro h
    cases h with
    | star u h => exact ⟨u, _, rfl, h⟩
  · rintro ⟨u, t, rfl, h⟩
    exact .star u h

theorem matches_one_iff {accepts : α → Bool} :
    Matches (.one accepts :: es) s ↔ ∃ x t, s = x :: t ∧ accepts x = true ∧ Matches es t := by
  constructor
  · intro h
    cases h with
    | one hx h => exact ⟨_, _, rfl, hx, h⟩
  · rintro ⟨x, t, rfl, hx, h⟩
    exact .one hx h

theorem verdict_star_of_none (h : ∀ t ∈ suffixes s, verdict es t = .failed) :
    verdict (.star :: es) s = verdict es s := by
  rw [verdict, search_eq_none.mpr h, Option.getD_none]

theorem verdict_star_of_some (h : search (verdict es) (suffixes s) = some v) : verdict (.star :: es) s = v := by
  rw [verdict, h, Option.getD_some]

/-- What stands behind a star in a text that matches is the text itself, or one of its suffixes. -/
theorem matches_star_cases (h : Matches (.star :: es) s) : Matches es s ∨ ∃ t ∈ suffixes s, Matches es t := by
  obtain ⟨u, t, rfl, ht⟩ := matches_star_iff.mp h
  cases u with
  | nil => exact .inl ht
  | cons x u => exact .inr ⟨t, mem_suffixes.mpr ⟨x, u, rfl⟩, ht⟩

theorem matches_star_of_suffix (ht : t ∈ suffixes s) (h : Matches es t) : Matches (.star :: es) s := by
  obtain ⟨x, u, rfl⟩ := mem_suffixes.mp ht
  exact .star (x :: u) h

/-- Of the suffixes, the longer ones end with the shorter ones. -/
theorem append_of_suffixes {us vs : List (List α)} (hEq : suffixes s = us ++ t :: vs) {w : List α}
    (hw : w ∈ vs ∨ w = s) : ∃ u, w = u ++ t := by
  induction s generalizing vs w with
  | nil => simp [suffixes] at hEq
  | cons x s ih =>
    rw [suffixes] at hEq
    obtain rfl | ⟨vs, v, rfl⟩ := List.eq_nil_or_concat vs
    · obtain ⟨-, rfl⟩ := List.append_singleton_inj.mp hEq
      obtain hw | rfl := hw
      · cases hw
      · exact ⟨[x], rfl⟩
    · rw [List.concat_eq_append] at hEq hw
      rw [← List.cons_append, ← List.append_assoc] at hEq
      obtain ⟨hBefore, rfl⟩ := List.append_singleton_inj.mp hEq
      obtain hw | rfl := hw
      · obtain hw | hw := List.mem_append.mp hw
        · exact ih hBefore (.inl hw)
        · exact ih hBefore (.inr (List.mem_singleton.mp hw))
      · obtain ⟨u, hu⟩ := ih hBefore (.inr rfl)
        exact ⟨x :: u, by rw [List.cons_append, ← hu]⟩

/-- The attempts end with a match on the texts that match, and only there. -/
def Decides (es : List (Element α)) : Prop := ∀ s, verdict es s = .matched ↔ Matches es s

/-- A text with something left over is the end of no text that matches. -/
def SurplusIsFinal (es : List (Element α)) : Prop := ∀ s u, verdict es s = .surplus → ¬ Matches es (u ++ s)

theorem decides_one (accepts : α → Bool) (h : Decides es) : Decides (.one accepts :: es) := by
  intro s
  cases s with
  | nil =>
    constructor
    · intro hVerdict
      cases hVerdict
    · intro hMatches
      cases hMatches
  | cons x s =>
    rw [verdict, matches_one_iff]
    split
    · rename_i hx
      rw [h s]
      constructor
      · intro hRest
        exact ⟨x, s, rfl, hx, hRest⟩
      · rintro ⟨_, _, ⟨⟩, -, hRest⟩
        exact hRest
    · rename_i hx
      constructor
      · intro hVerdict
        cases hVerdict
      · rintro ⟨_, _, ⟨⟩, hAccepts, -⟩
        exact absurd hAccepts hx

theorem surplusIsFinal_one (accepts : α → Bool) (h : SurplusIsFinal es) : SurplusIsFinal (.one accepts :: es) := by
  intro s u hOver hMatches
  cases s with
  | nil => cases hOver
  | cons x s =>
    rw [verdict] at hOver
    split at hOver
    · obtain ⟨y, t, hEq, -, hRest⟩ := matches_one_iff.mp hMatches
      cases u with
      | nil =>
        cases hEq
        exact h s [] hOver hRest
      | cons z u =>
        cases hEq
        apply h s (u ++ [x]) hOver
        rw [List.append_assoc]
        exact hRest
    · cases hOver

theorem Decides.not_matches (h : Decides es) (hFailed : verdict es s = .failed) : ¬ Matches es s := by
  intro hMatches
  rw [(h s).mpr hMatches] at hFailed
  cases hFailed

theorem decides_star (h : Decides es) (hFinal : SurplusIsFinal es) : Decides (.star :: es) := by
  intro s
  cases hSearch : search (verdict es) (suffixes s) with
  | none =>
    have hAll := search_eq_none.mp hSearch
    rw [verdict_star_of_none hAll, h s]
    constructor
    · exact Matches.star []
    · intro hMatches
      obtain hMatches | ⟨t, ht, hMatches⟩ := matches_star_cases hMatches
      · exact hMatches
      · exact absurd hMatches (h.not_matches (hAll t ht))
  | some v =>
    rw [verdict_star_of_some hSearch]
    obtain ⟨us, t, vs, hEq, hBefore, ⟨hAt, rfl⟩ | ⟨hAt, rfl⟩⟩ := search_eq_some.mp hSearch
    · have ht : t ∈ suffixes s := by
        rw [hEq]
        exact List.mem_append_right us List.mem_cons_self
      exact ⟨fun _ => matches_star_of_suffix ht ((h t).mp hAt), fun _ => rfl⟩
    · -- The suffixes before this one failed, and the longer ones end with it.
      have hLonger : ∀ w, w ∈ vs ∨ w = s → ¬ Matches es w := by
        intro w hw
        obtain ⟨u, rfl⟩ := append_of_suffixes hEq hw
        exact hFinal t u hAt
      constructor
      · intro hVerdict
        cases hVerdict
      · intro hMatches
        exfalso
        obtain hMatches | ⟨w, hw, hMatches⟩ := matches_star_cases hMatches
        · exact hLonger s (.inr rfl) hMatches
        · rw [hEq, List.mem_append, List.mem_cons] at hw
          obtain hw | rfl | hw := hw
          · exact h.not_matches (hBefore w hw) hMatches
          · exact hFinal w [] hAt hMatches
          · exact hLonger w (.inl hw) hMatches

theorem surplusIsFinal_star (h : Decides es) (hFinal : SurplusIsFinal es) : SurplusIsFinal (.star :: es) := by
  intro s u hOver hMatches
  cases hSearch : search (verdict es) (suffixes s) with
  | some v =>
    rw [verdict_star_of_some hSearch] at hOver
    rw [hOver] at hSearch
    exact search_ne_surplus hSearch
  | none =>
    have hAll := search_eq_none.mp hSearch
    rw [verdict_star_of_none hAll] at hOver
    obtain ⟨w, t, hEq, hRest⟩ := matches_star_iff.mp hMatches
    obtain ⟨a, rfl, rfl⟩ | ⟨c, rfl, rfl⟩ := List.append_eq_append_iff.mp hEq
    · cases a with
      | nil => exact hFinal _ [] hOver hRest
      | cons x a => exact h.not_matches (hAll t (mem_suffixes.mpr ⟨x, a, rfl⟩)) hRest
    · exact hFinal s c hOver hRest

theorem decides_and_surplusIsFinal (es : List (Element α)) : Decides es ∧ SurplusIsFinal es := by
  have hNil : ∀ s : List α, Matches [] s → s = [] := by
    intro s h
    cases h
    rfl
  induction es with
  | nil =>
    constructor
    · intro s
      cases s with
      | nil => exact ⟨fun _ => .nil, fun _ => rfl⟩
      | cons x s =>
        constructor
        · intro h
          cases h
        · intro h
          cases hNil _ h
    · intro s u hOver hMatches
      cases s with
      | nil => cases hOver
      | cons x s => simpa using hNil _ hMatches
  | cons e es ih =>
    cases e with
    | one accepts => exact ⟨decides_one accepts ih.1, surplusIsFinal_one accepts ih.2⟩
    | star => exact ⟨decides_star ih.1 ih.2, surplusIsFinal_star ih.1 ih.2⟩

theorem verdict_eq_matched : verdict es s = .matched ↔ Matches es s := (decides_and_surplusIsFinal es).1 s

end Libdap.Wildcard
