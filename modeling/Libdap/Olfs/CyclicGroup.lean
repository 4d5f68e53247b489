import Mathlib.Data.List.Rotate
import Mathlib.Logic.Function.Basic
import Mathlib.Logic.Relation
import Libdap.Olfs.BESManager

/-! # Turns in a cyclic group

Threads call `getNext` of one group. Its lock lets one of them in at a time, so that the calls take the members in turn,
up to where the `int` that counts the calls is negative.
-/

namespace Libdap.Olfs
set_option autoImplicit false

/-- Where a thread is in `getNext`. -/
inductive Place
  | outside
  | locked
  | fetched (index : Int)
  | answered
  deriving DecidableEq, Repr

/-- `answers` are those of all calls, in the order in which they had the lock. -/
structure Threads (τ α : Type) where
  group : CyclicGroup α
  lock : Option τ
  place : τ → Place
  answers : List (Except JavaException α)

namespace Threads

variable {τ α : Type} {s s' : Threads τ α} {members : List α}

inductive Step [DecidableEq τ] : Threads τ α → Threads τ α → Prop
  | lock {s : Threads τ α} (i : τ) (hFree : s.lock = none) (hPlace : s.place i = .outside) :
    Step s { s with lock := some i, place := Function.update s.place i .locked }
  | fetch {s : Threads τ α} (i : τ) (hPlace : s.place i = .locked) :
    Step s { s with
      group := s.group.getNext.2
      place := Function.update s.place i (.fetched s.group.nextMemberIndex) }
  | answer {s : Threads τ α} (i : τ) (index : Int) (hPlace : s.place i = .fetched index) :
    Step s { s with
      place := Function.update s.place i .answered
      answers := s.answers ++ [(CyclicGroup.getNext ⟨s.group.members, index⟩).1] }
  | unlock {s : Threads τ α} (i : τ) (hPlace : s.place i = .answered) :
    Step s { s with lock := none, place := Function.update s.place i .outside }

abbrev Reaches [DecidableEq τ] : Threads τ α → Threads τ α → Prop := Relation.ReflTransGen Step

def start (τ : Type) {α : Type} (members : List α) : Threads τ α := ⟨⟨members, 0⟩, none, fun _ => .outside, []⟩

/-- The `int` after a number of increments. -/
def counter (k : Nat) : Int := ((k : Int) + 2147483648) % 4294967296 - 2147483648

/-- The answer of the call with a number. -/
def given (members : List α) (k : Nat) : Except JavaException α := (CyclicGroup.getNext ⟨members, counter k⟩).1

theorem counter_succ (k : Nat) :
    (if counter k = 2147483647 then -2147483648 else counter k + 1) = counter (k + 1) := by
  rw [counter, counter]
  split <;> omega

theorem getNext_counter {k : Nat} : (CyclicGroup.getNext ⟨members, counter k⟩).2 = ⟨members, counter (k + 1)⟩ := by
  rw [CyclicGroup.getNext]
  dsimp only
  rw [counter_succ]
  split
  · rfl
  · split
    · rfl
    · split <;> rfl

/-! ## The lock -/

/-- Who is inside has the lock, and the calls up to now had the numbers up to the counter. -/
structure InTurn (members : List α) (s : Threads τ α) : Prop where
  group : s.group.members = members
  owner : ∀ i, s.place i ≠ .outside → s.lock = some i
  answers : s.answers = (List.range s.answers.length).map (given members)
  fetched : ∀ i index, s.place i = .fetched index →
    index = counter s.answers.length ∧ s.group.nextMemberIndex = counter (s.answers.length + 1)
  counted : (∀ i index, s.place i ≠ .fetched index) → s.group.nextMemberIndex = counter s.answers.length

theorem start_inTurn : InTurn members (start τ members) where
  group := rfl
  owner _ h := absurd rfl h
  answers := rfl
  fetched _ _ h := nomatch h
  counted _ := (by decide : (0 : Int) = counter 0)

theorem InTurn.alone (h : InTurn members s) {i j : τ} (hi : s.place i ≠ .outside) (hj : s.place j ≠ .outside) :
    j = i := Option.some.inj ((h.owner j hj).symm.trans (h.owner i hi))

/-- All other threads are outside. -/
theorem InTurn.others (h : InTurn members s) {i : τ} (hi : s.place i ≠ .outside) {j : τ} (hNot : j ≠ i) :
    s.place j = .outside := by
  by_contra hj
  exact hNot (h.alone hi hj)

theorem InTurn.none_fetched (h : InTurn members s) {i : τ} (hi : s.place i ≠ .outside)
    (hPlace : ∀ index, s.place i ≠ .fetched index) (j : τ) (index : Int) : s.place j ≠ .fetched index := by
  by_cases hSame : j = i
  · rw [hSame]
    exact hPlace index
  · rw [h.others hi hSame]
    nofun

section
variable [DecidableEq τ]

theorem step_inTurn (h : InTurn members s) (hStep : Step s s') : InTurn members s' := by
  cases hStep with
  | lock i hFree hPlace =>
    have hOutside (j : τ) : s.place j = .outside := by
      by_contra hj
      cases hFree.symm.trans (h.owner j hj)
    refine ⟨h.group, fun j hj => ?_, h.answers, fun j index hj => ?_, fun _ => ?_⟩
    · by_cases hSame : j = i
      · rw [hSame]
      · dsimp only at hj
        rw [Function.update_of_ne hSame] at hj
        exact absurd (hOutside j) hj
    · dsimp only at hj
      by_cases hSame : j = i
      · rw [hSame, Function.update_self] at hj
        cases hj
      · rw [Function.update_of_ne hSame, hOutside] at hj
        cases hj
    · refine h.counted fun j index hj => ?_
      rw [hOutside] at hj
      cases hj
  | fetch i hPlace =>
    have hInside : s.place i ≠ .outside := by
      rw [hPlace]
      nofun
    have hCounter : s.group = ⟨members, counter s.answers.length⟩ := by
      have hIndex := h.counted (h.none_fetched hInside fun index => by rw [hPlace]; nofun)
      rw [← h.group, ← hIndex]
    have hNext : s.group.getNext.2 = ⟨members, counter (s.answers.length + 1)⟩ := by
      rw [hCounter, getNext_counter]
    refine ⟨by rw [hNext], fun j hj => ?_, h.answers, fun j index hj => ?_, fun hNone => ?_⟩
    · by_cases hSame : j = i
      · rw [hSame]
        exact h.owner i hInside
      · dsimp only at hj
        rw [Function.update_of_ne hSame] at hj
        exact h.owner j hj
    · dsimp only at hj ⊢
      by_cases hSame : j = i
      · rw [hSame, Function.update_self] at hj
        cases hj
        rw [hNext, hCounter]
        exact ⟨rfl, rfl⟩
      · rw [Function.update_of_ne hSame, h.others hInside hSame] at hj
        cases hj
    · exact absurd (Function.update_self _ _ _) (hNone i _)
  | answer i index hPlace =>
    have hInside : s.place i ≠ .outside := by
      rw [hPlace]
      nofun
    obtain ⟨hIndex, hCounter⟩ := h.fetched i index hPlace
    have hNone (j : τ) (index : Int) : Function.update s.place i .answered j ≠ .fetched index := by
      by_cases hSame : j = i
      · rw [hSame, Function.update_self]
        nofun
      · rw [Function.update_of_ne hSame, h.others hInside hSame]
        nofun
    refine ⟨h.group, fun j hj => ?_, ?_, fun j index hj => absurd hj (hNone j index), fun _ => ?_⟩
    · by_cases hSame : j = i
      · rw [hSame]
        exact h.owner i hInside
      · dsimp only at hj
        rw [Function.update_of_ne hSame] at hj
        exact h.owner j hj
    · rw [List.length_append, List.length_singleton, List.range_succ, List.map_append, ← h.answers, h.group, hIndex]
      rfl
    · rw [List.length_append]
      exact hCounter
  | unlock i hPlace =>
    have hInside : s.place i ≠ .outside := by
      rw [hPlace]
      nofun
    have hOutside (j : τ) : Function.update s.place i .outside j = .outside := by
      by_cases hSame : j = i
      · rw [hSame, Function.update_self]
      · rw [Function.update_of_ne hSame, h.others hInside hSame]
    refine ⟨h.group, fun j hj => absurd (hOutside j) hj, h.answers, fun j index hj => ?_, fun _ => ?_⟩
    · cases (hOutside j).symm.trans hj
    · exact h.counted (h.none_fetched hInside fun index => by rw [hPlace]; nofun)

theorem reaches_inTurn (h : Reaches (start τ members) s) : InTurn members s := by
  induction h with
  | refl => exact start_inTurn
  | tail _ hStep ih => exact step_inTurn ih hStep

/-- One thread calls as often as one likes. -/
theorem reaches_calls (members : List α) (i : τ) (n : Nat) :
    ∃ s : Threads τ α, Reaches (start τ members) s ∧ s.answers.length = n ∧ s.lock = none ∧ s.place i = .outside := by
  induction n with
  | zero => exact ⟨start τ members, .refl, rfl, rfl, rfl⟩
  | succ n ih =>
    obtain ⟨s, hReaches, hCount, hFree, hPlace⟩ := ih
    have hLock := hReaches.tail (.lock i hFree hPlace)
    have hFetch := hLock.tail (.fetch i (Function.update_self _ _ _))
    have hAnswer := hFetch.tail (.answer i _ (Function.update_self _ _ _))
    have hUnlock := hAnswer.tail (.unlock i (Function.update_self _ _ _))
    refine ⟨_, hUnlock, ?_, rfl, Function.update_self _ _ _⟩
    rw [List.length_append, hCount]
    rfl

end

/-! ## The turns -/

/-- The `k`-th call has member `k mod n`, and `n` calls in a row have every member once. -/
def RoundRobin (members : List α) (answers : List (Except JavaException α)) : Prop :=
  (∀ k, k < answers.length → answers[k]? = (members[k % members.length]?).map .ok) ∧
    ∀ i, i + members.length ≤ answers.length →
      ((answers.drop i).take members.length).Perm (members.map .ok)

theorem roundRobin_iff {answers : List (Except JavaException α)} :
    RoundRobin members answers ↔
      ∀ k, k < answers.length → answers[k]? = (members[k % members.length]?).map .ok := by
  refine ⟨fun h => h.1, fun h => ⟨h, fun i hi => ?_⟩⟩
  have hTurn : (answers.drop i).take members.length = (members.rotate i).map .ok := by
    apply List.ext_getElem?
    intro k
    by_cases hk : k < members.length
    · rw [List.getElem?_take_of_lt hk, List.getElem?_drop, h _ (by omega), List.getElem?_map, List.getElem?_rotate hk,
        Nat.add_comm]
    · rw [List.getElem?_eq_none (by rw [List.length_take]; omega),
        List.getElem?_eq_none (by rw [List.length_map, List.length_rotate]; omega)]
  rw [hTurn]
  exact (List.rotate_perm members i).map _

theorem given_nonneg (hSome : members ≠ []) {k i : Nat} (h : (counter k).tmod members.length = i) :
    some (given members k) = (members[i]?).map .ok := by
  have hInside : i < members.length := by
    have hPos : (0 : Int) < members.length := Int.natCast_pos.mpr (List.length_pos_iff.mpr hSome)
    have hLt := Int.tmod_lt_of_pos (counter k) hPos
    omega
  rw [given, CyclicGroup.getNext]
  dsimp only
  rw [if_neg hSome, h, if_neg (Int.not_lt.mpr (Int.natCast_nonneg i)), Int.toNat_natCast,
    List.getElem?_eq_getElem hInside]
  rfl

theorem given_neg (hSome : members ≠ []) {k : Nat} (h : (counter k).tmod members.length < 0) :
    given members k = .error .indexOutOfBounds := by
  rw [given, CyclicGroup.getNext]
  dsimp only
  rw [if_neg hSome, if_pos h]

/-- The call with the number `k` has its turn. -/
def HasTurn (members : List α) (k : Nat) : Prop := some (given members k) = (members[k % members.length]?).map .ok

theorem hasTurn_low (hSome : members ≠ []) {k : Nat} (hk : k < 2147483648) : HasTurn members k := by
  refine given_nonneg hSome ?_
  rw [counter, show ((k : Int) + 2147483648) % 4294967296 - 2147483648 = k by omega]
  exact (Int.ofNat_tmod k members.length).symm

theorem hasTurn_single (hOne : members.length = 1) (k : Nat) : HasTurn members k := by
  have hSome : members ≠ [] := by
    rintro rfl
    cases hOne
  refine given_nonneg hSome ?_
  rw [hOne, Nat.mod_one, Nat.cast_one, Int.tmod_one]
  rfl

theorem HasTurn.not_neg (hSome : members ≠ []) {k m : Nat} (h : HasTurn members k) (hCounter : counter k = -(m : Int)) :
    members.length ∣ m := by
  by_contra hNot
  have hNeg : (counter k).tmod members.length < 0 := by
    rw [hCounter, Int.neg_tmod, ← Int.ofNat_tmod]
    have hRest := Nat.pos_of_ne_zero fun hZero => hNot (Nat.dvd_of_mod_eq_zero hZero)
    omega
  have hInside : k % members.length < members.length := Nat.mod_lt _ (List.length_pos_iff.mpr hSome)
  rw [HasTurn, given_neg hSome hNeg, List.getElem?_eq_getElem hInside] at h
  cases h

theorem hasTurn_first (hSome : members ≠ []) : HasTurn members 2147483648 ↔ members.length ∣ 2147483648 := by
  have hCounter : counter 2147483648 = -((2147483648 : Nat) : Int) := by decide
  refine ⟨fun h => h.not_neg hSome hCounter, fun h => ?_⟩
  refine given_nonneg hSome ?_
  rw [hCounter, Int.neg_tmod, ← Int.ofNat_tmod, Nat.mod_eq_zero_of_dvd h]
  rfl

/-- The second call with a negative number. -/
theorem hasTurn_second (hSome : members ≠ []) (hFirst : members.length ∣ 2147483648)
    (h : HasTurn members 2147483649) : members.length = 1 := by
  have hSecond := h.not_neg hSome (m := 2147483647) (by decide)
  exact Nat.dvd_one.mp ((Nat.dvd_add_right hSecond).mp hFirst)

theorem InTurn.roundRobin_iff (h : InTurn members s) :
    RoundRobin members s.answers ↔ ∀ k, k < s.answers.length → HasTurn members k := by
  have hAt (k : Nat) (hk : k < s.answers.length) : s.answers[k]? = some (given members k) := by
    rw [h.answers, List.getElem?_map, List.getElem?_range hk]
    rfl
  rw [Threads.roundRobin_iff]
  exact forall₂_congr fun k hk => by rw [hAt k hk, HasTurn]

/-- For up to `n` calls, by whatever threads. -/
theorem round_robin_iff [DecidableEq τ] [Nonempty τ] (hSome : members ≠ []) (n : Nat) :
    (∀ s : Threads τ α, Reaches (start τ members) s → s.answers.length ≤ n → RoundRobin members s.answers) ↔
      members.length = 1 ∨ n ≤ 2147483648 ∨ members.length ∣ 2147483648 ∧ n ≤ 2147483649 := by
  constructor
  · intro hAll
    obtain ⟨i⟩ := ‹Nonempty τ›
    obtain ⟨s, hReaches, hCount, -⟩ := reaches_calls members i n
    have hTurns := (reaches_inTurn hReaches).roundRobin_iff.mp (hAll s hReaches (Nat.le_of_eq hCount))
    rw [hCount] at hTurns
    rcases Nat.lt_or_ge 2147483648 n with hFirst | hLow
    · have hDivides := (hasTurn_first hSome).mp (hTurns _ hFirst)
      rcases Nat.lt_or_ge 2147483649 n with hSecond | hLow
      · exact .inl (hasTurn_second hSome hDivides (hTurns _ hSecond))
      · exact .inr (.inr ⟨hDivides, hLow⟩)
    · exact .inr (.inl hLow)
  · intro hWhen s hReaches hCount
    refine (reaches_inTurn hReaches).roundRobin_iff.mpr fun k hk => ?_
    rcases hWhen with hOne | hLow | ⟨hDivides, hLow⟩
    · exact hasTurn_single hOne k
    · exact hasTurn_low hSome (by omega)
    · rcases Nat.lt_or_ge k 2147483648 with hBelow | hAt
      · exact hasTurn_low hSome hBelow
      · rw [show k = 2147483648 by omega]
        exact (hasTurn_first hSome).mpr hDivides

theorem two_in_turn : [7, 8].length ∣ 2147483648 ∧
    ∀ s : Threads Nat Nat, Reaches (start Nat [7, 8]) s → s.answers.length ≤ 2147483649 →
      RoundRobin [7, 8] s.answers :=
  ⟨by decide, (round_robin_iff (List.cons_ne_nil 7 [8]) 2147483649).mpr (.inr (.inr (by decide)))⟩

/-- Three members, one of whom is asked for with the index -2. -/
theorem three_out_of_turn : given [7, 8, 9] 2147483648 = .error .indexOutOfBounds ∧
    ∃ s : Threads Nat Nat, Reaches (start Nat [7, 8, 9]) s ∧ ¬ RoundRobin [7, 8, 9] s.answers := by
  refine ⟨by decide, ?_⟩
  by_contra hNot
  push Not at hNot
  have hWhen := (round_robin_iff (τ := Nat) (List.cons_ne_nil 7 [8, 9]) 2147483649).mp fun s hReaches _ => hNot s
      hReaches
  revert hWhen
  decide

end Threads

end Libdap.Olfs
