import Mathlib.Data.List.Basic
import Mathlib.Data.List.Forall2

/-! # Matching with backtracking

A pattern is a chain of nodes, each of which tries what is behind it. Beside the match, a try gives whether it looked at
the end of the text; a search goes from place to place up to the first match.
-/

namespace Libdap.Core
set_option autoImplicit false

variable {α : Type}

/-- What is left behind a match, and whether the end of the text was hit. -/
abbrev Try (α : Type) := Option (List α) × Bool

abbrev Node (α : Type) := List α → Try α

def Try.orElse (t u : Try α) : Try α :=
  match t with
  | (some rest, hitEnd) => (some rest, hitEnd)
  | (none, hitEnd) => (u.1, hitEnd || u.2)

namespace Node

def accept : Node α := fun text => (some text, false)

/-- A fixed text, of which a character may stand for others. -/
def slice (eq : α → α → Bool) (next : Node α) : List α → Node α
  | [], text => next text
  | _ :: _, [] => (none, true)
  | b :: bs, c :: cs => if eq b c then slice eq next bs cs else (none, false)

/-- As many characters as possible, and then one less and one less. -/
def many (p : α → Bool) (next : Node α) : Node α
  | [] => ((next []).1, true)
  | c :: cs => if p c then (many p next cs).orElse (next (c :: cs)) else next (c :: cs)

def optional (group : Node α → Node α) (next : Node α) : Node α := fun text => (group next text).orElse (next text)

/-- The first match, with the number of the characters before it. No match has less than `minLength` characters. -/
def search (node : Node α) (minLength : Nat) : List α → Option (Nat × List α) × Bool
  | [] =>
    if 0 < minLength then (none, true)
    else match node [] with
      | (some rest, hitEnd) => (some (0, rest), hitEnd)
      | (none, _) => (none, true)
  | c :: cs =>
    if (c :: cs).length < minLength then (none, true)
    else match node (c :: cs) with
      | (some rest, hitEnd) => (some (0, rest), hitEnd)
      | (none, hitEnd) =>
        let (found, hitEnd') := search node minLength cs
        (found.map fun (n, rest) => (n + 1, rest), hitEnd || hitEnd')

attribute [local grind =] slice many search

end Node

/-- `first` is none where it would be negative. -/
structure Matcher (α : Type) where
  text : List α
  first : Option Nat
  last : Nat
  hitEnd : Bool

namespace Matcher

def of (text : List α) : Matcher α := ⟨text, none, 0, false⟩

/-- The next match behind the last one. -/
def find (node : Node α) (minLength : Nat) (m : Matcher α) : Bool × Matcher α :=
  let next := if m.first = some m.last then m.last + 1 else m.last
  if m.text.length < next then (false, m)
  else match node.search minLength (m.text.drop next) with
    | (some (n, rest), hitEnd) =>
      (true, { m with first := some (next + n), last := m.text.length - rest.length, hitEnd := hitEnd })
    | (none, hitEnd) => (false, { m with first := none, hitEnd := hitEnd })

/-- Finds until the end of the text is hit, for a number of rounds; gives the result of the last one. -/
def findToEnd (node : Node α) (minLength : Nat) : Nat → Bool → Matcher α → Option (Bool × Matcher α)
  | 0, found, m => if m.hitEnd then some (found, m) else none
  | n + 1, found, m =>
    if m.hitEnd then some (found, m)
    else
      let (found, m) := find node minLength m
      findToEnd node minLength n found m

end Matcher

/-! ## Tries -/

namespace Node

variable {eq : α → α → Bool} {p : α → Bool} {next node : Node α} {bs cs text rest : List α} {m : Nat} {hitEnd : Bool}

theorem slice_append (h : List.Forall₂ (fun b c => eq b c = true) bs cs) (rest : List α) :
    slice eq next bs (cs ++ rest) = next rest := by
  induction h with
  | nil => rfl
  | cons hHead _ ih => rw [List.cons_append, slice, if_pos hHead, ih]

/-- A text that does not begin with the fixed one. -/
theorem slice_other (hLength : bs.length ≤ text.length)
    (h : ∀ cs rest, text = cs ++ rest → ¬List.Forall₂ (fun b c => eq b c = true) bs cs) :
    slice eq next bs text = (none, false) := by
  induction bs generalizing text with
  | nil => exact absurd List.Forall₂.nil (h [] text rfl)
  | cons b bs ih =>
    cases text with
    | nil => exact absurd hLength (Nat.not_succ_le_zero _)
    | cons c cs =>
      rw [slice]
      split
      next hHead =>
        refine ih (Nat.le_of_succ_le_succ hLength) fun ds rest hSplit hAll => ?_
        exact h (c :: ds) rest (by rw [hSplit, List.cons_append]) (List.Forall₂.cons hHead hAll)
      next => rfl

theorem slice_some (h : (slice eq next bs text).1 = some rest) :
    ∃ cs behind, text = cs ++ behind ∧ List.Forall₂ (fun b c => eq b c = true) bs cs ∧ (next behind).1 = some rest := by
  induction bs generalizing text with
  | nil => exact ⟨[], text, rfl, .nil, h⟩
  | cons b bs ih =>
    cases text with
    | nil => cases h
    | cons c cs =>
      rw [slice] at h
      split at h
      next hHead =>
        obtain ⟨ds, behind, rfl, hAll, hNext⟩ := ih h
        exact ⟨c :: ds, behind, rfl, .cons hHead hAll, hNext⟩
      next => cases h

/-- The characters at which what is behind fails are passed, if they may be. -/
theorem many_passed (h : ∀ c ∈ cs, ∀ behind, next (c :: behind) = (none, false)) (rest : List α) :
    many p next (cs ++ rest) = if cs.all p then many p next rest else (none, false) := by
  induction cs with
  | nil => rfl
  | cons c cs ih =>
    obtain ⟨hFirst, hOthers⟩ := List.forall_mem_cons.mp h
    rw [List.cons_append, many, hFirst, ih hOthers, List.all_cons]
    cases p c with
    | false => rfl
    | true =>
      rw [if_pos rfl, Bool.true_and]
      split
      · rcases many p next rest with ⟨_ | _, hitEnd⟩
        · exact congrArg _ (Bool.or_false _)
        · rfl
      · rfl

/-- A match leaves at least `k` characters less. -/
def Consumes (k : Nat) (node : Node α) : Prop := ∀ text rest, (node text).1 = some rest → rest.length + k ≤ text.length

theorem accept_consumes : Consumes 0 (accept : Node α) := by
  intro text rest h
  cases h
  exact Nat.le_refl _

theorem Consumes.slice {k : Nat} (h : Consumes k next) (bs : List α) : Consumes (bs.length + k) (slice eq next bs) := by
  intro text rest hSome
  obtain ⟨cs, behind, rfl, hAll, hNext⟩ := slice_some hSome
  have hLess := h _ _ hNext
  have hLength := hAll.length_eq
  rw [List.length_append]
  omega

theorem orElse_some {t u : Try α} (h : (t.orElse u).1 = some rest) : t.1 = some rest ∨ u.1 = some rest := by
  rcases t with ⟨_ | _, _⟩
  · exact .inr h
  · exact .inl h

theorem Consumes.many {k : Nat} (h : Consumes k next) : Consumes k (many p next) := by
  intro text
  induction text with
  | nil => exact fun rest hSome => h [] rest hSome
  | cons c cs ih =>
    intro rest hSome
    rw [Node.many] at hSome
    split at hSome
    · rcases orElse_some hSome with hSome | hSome
      · exact Nat.le_succ_of_le (ih rest hSome)
      · exact h _ _ hSome
    · exact h _ _ hSome

theorem Consumes.weaken {k j : Nat} (h : Consumes k node) (hLess : j ≤ k) : Consumes j node :=
  fun text rest hSome => Nat.le_trans (Nat.add_le_add_left hLess _) (h text rest hSome)

theorem Consumes.optional {k : Nat} {group : Node α → Node α} (h : Consumes k next) (hGroup : Consumes k (group next)) :
    Consumes k (optional group next) := by
  intro text rest hSome
  rcases orElse_some hSome with hSome | hSome
  · exact hGroup _ _ hSome
  · exact h _ _ hSome

/-! ## Searches -/

theorem search_match (hLength : m ≤ text.length) (h : node text = (some rest, hitEnd)) :
    search node m text = (some (0, rest), hitEnd) := by
  cases text with
  | nil =>
    have hZero : ¬0 < m := Nat.not_lt.mpr hLength
    rw [search, if_neg hZero, h]
  | cons c cs => rw [search, if_neg (Nat.not_lt.mpr hLength), h]

/-- The places at which the match fails at once do not matter. -/
theorem search_passed {before : List α} (hLength : m ≤ text.length)
    (h : ∀ k, k < before.length → node ((before ++ text).drop k) = (none, false)) :
    search node m (before ++ text) =
      ((search node m text).1.map fun found => (before.length + found.1, found.2), (search node m text).2) := by
  induction before with
  | nil =>
    rw [List.nil_append, List.length_nil]
    rcases search node m text with ⟨_ | found, hitEnd⟩
    · rfl
    · simp only [Option.map_some, Nat.zero_add]
  | cons c before ih =>
    have hFirst := h 0 (Nat.succ_pos _)
    have hOthers := ih fun k hk => h (k + 1) (Nat.succ_lt_succ hk)
    rw [List.drop_zero, List.cons_append] at hFirst
    rw [List.cons_append, search, if_neg (by rw [List.length_cons, List.length_append]; omega), hFirst, hOthers]
    dsimp only
    rw [Bool.false_or, Option.map_map, List.length_cons]
    congr 2
    funext found
    exact Prod.ext (by dsimp only [Function.comp_apply]; omega) rfl

theorem search_none (h : ∀ k, (node (text.drop k)).1 = none) : search node m text = (none, true) := by
  induction text with
  | nil =>
    have hHere := h 0
    rw [List.drop_nil] at hHere
    rw [search]
    split
    · rfl
    · rcases hNode : node [] with ⟨_ | _, _⟩
      · rfl
      · rw [hNode] at hHere
        cases hHere
  | cons c cs ih =>
    have hHere := h 0
    rw [List.drop_zero] at hHere
    rw [search, ih fun k => h (k + 1)]
    split
    · rfl
    · rcases hNode : node (c :: cs) with ⟨_ | _, hitEnd⟩
      · exact congrArg _ (Bool.or_true hitEnd)
      · rw [hNode] at hHere
        cases hHere

/-- A search without a match has hit the end, and a match is within the text. -/
theorem search_cases {k : Nat} (h : Consumes k node) (m : Nat) (text : List α) :
    search node m text = (none, true) ∨
      ∃ n rest hitEnd, search node m text = (some (n, rest), hitEnd) ∧ n + rest.length + k ≤ text.length := by
  induction text with
  | nil =>
    rw [search]
    split
    · exact .inl rfl
    · rcases hNode : node [] with ⟨_ | rest, hitEnd⟩
      · exact .inl rfl
      · have hLess := h [] rest (by rw [hNode])
        exact .inr ⟨0, rest, hitEnd, rfl, by omega⟩
  | cons c cs ih =>
    rw [search]
    split
    · exact .inl rfl
    · rcases hNode : node (c :: cs) with ⟨_ | rest, hitEnd⟩
      · rcases ih with hNone | ⟨n, rest, hitEnd', hSome, hLess⟩
        · left
          rw [hNone]
          exact congrArg _ (Bool.or_true hitEnd)
        · right
          refine ⟨n + 1, rest, hitEnd || hitEnd', by rw [hSome]; rfl, ?_⟩
          rw [List.length_cons]
          omega
      · have hLess := h (c :: cs) rest (by rw [hNode])
        exact .inr ⟨0, rest, hitEnd, rfl, by omega⟩

end Node

namespace Matcher

variable {node : Node α} {m : Matcher α} {k : Nat}

/-- What holds between two finds of matches that are not empty. -/
structure Behind (m : Matcher α) : Prop where
  last : m.last ≤ m.text.length
  first : m.first ≠ some m.last

theorem find_behind (hNode : node.Consumes (k + 1)) (minLength : Nat) (h : m.Behind) :
    (find node minLength m).2.hitEnd = true ∨
      ((find node minLength m).2.Behind ∧ (find node minLength m).2.text = m.text ∧
        m.last < (find node minLength m).2.last) := by
  have hLast := h.last
  rw [find, if_neg h.first, if_neg (Nat.not_lt.mpr hLast)]
  rcases Node.search_cases hNode minLength (m.text.drop m.last) with hNone | ⟨n, rest, hitEnd, hSome, hLess⟩
  · rw [hNone]
    exact .inl rfl
  · rw [List.length_drop] at hLess
    rw [hSome]
    refine .inr ⟨⟨?_, ?_⟩, rfl, ?_⟩
    · exact Nat.sub_le _ _
    · intro hSame
      have hEqual := Option.some.inj hSame
      dsimp only at hEqual
      omega
    · dsimp only
      omega

/-- The finds come to the end of the text. -/
theorem findToEnd_ends (hNode : node.Consumes (k + 1)) (minLength : Nat) {n : Nat} {found : Bool} (h : m.Behind)
    (hRounds : m.text.length - m.last < n) : (findToEnd node minLength n found m).isSome = true := by
  induction n generalizing m found with
  | zero => exact absurd hRounds (Nat.not_lt_zero _)
  | succ n ih =>
    rw [findToEnd]
    split
    · rfl
    · have hLast := h.last
      dsimp only
      rcases find_behind hNode minLength h with hHit | ⟨hBehind, hText, hLess⟩
      · cases n with
        | zero => rw [findToEnd, if_pos hHit]; rfl
        | succ n => rw [findToEnd, if_pos hHit]; rfl
      · refine ih hBehind ?_
        have hLast' := hBehind.last
        rw [hText] at hLast' ⊢
        omega

end Matcher

end Libdap.Core
